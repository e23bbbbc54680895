import Mathlib
import Arkiv.IndexTree.Format
import Arkiv.IndexTree.Kinds
import Arkiv.IndexTree.Size

/-!
# Accepted documents and calls that panic

Neither the key count nor the index of a 48-node is checked when a document is
read. Even a tree that is decoded from a good document does not survive every
run: the 16-bit child counter of a 256-node only ever grows, and once it has
wrapped the next removal shrinks a node with more than 48 children.

## Main definitions

- `IndexTree.DecodesSafely` — an error, or a tree that counts its keys and survives all calls
- `Node.Fails` — some run panics
- `Node.fails_of_collectAll` — every node that can be enumerated has such a run
- `IndexTree.decodesSafely_iff` — what is decoded safely
- `IndexTree.Represents.runOps` — what a good document survives
-/

namespace Arkiv

open ByteString

/-- The call on a node, without the count of keys. -/
def SetOp.onNode (node : Node) : SetOp → Option (Node × Bool)
  | .insert key => node.insertNode key
  | .remove key => node.removeNode key

/-- The call with bytes in front of its key. -/
def SetOp.under (path : Bytes) : SetOp → SetOp
  | .insert key => .insert (path ++ key)
  | .remove key => .remove (path ++ key)

namespace IndexTree

/-- The tree after some calls, whatever they answer. -/
def runOps (t : IndexTree) (ops : List SetOp) : Option IndexTree :=
  ops.foldlM (fun t op => (op.onTree t).map Prod.fst) t

/-- The data is rejected, or its tree counts its keys and no run of calls panics, nor an
    enumeration after it. -/
def DecodesSafely (data : Bytes) : Prop :=
  ∀ t, fromBytes data = .ok t → (∃ l, t.keys = some l ∧ t.len = l.length) ∧
    ∀ ops, ∃ t', t.runOps ops = some t' ∧ ∃ l, t'.keys = some l

end IndexTree

namespace Node

/-- A run of calls that panics and leaves keys until then. -/
inductive Fails : Node → Prop
  | now {node : Node} (op : SetOp) (h : op.onNode node = none) : Fails node
  | later {node node' : Node} (op : SetOp) {changed : Bool}
      (h : op.onNode node = some (node', changed)) (hne : node'.isEmpty = false)
      (hf : Fails node') : Fails node

variable {node node' c c' g : Node} {b : UInt8} {pfx : Bytes} {he : Bool} {n : ℕ}

section Branch

theorem nodeChild_setChild (hc : node.nodeChild b = some c) (hne : c'.isEmpty = false) :
    (Node.setChild b c' node).nodeChild b = some c' := by
  cases node with
  | empty => cases hc
  | leaf sfx => cases hc
  | n4 pfx he n keys ch =>
    obtain ⟨i, hi, -⟩ := Option.map_eq_some_iff.mp hc
    simp [Node.setChild, hi, nodeChild]
  | n16 pfx he n keys ch =>
    obtain ⟨i, hi, -⟩ := Option.map_eq_some_iff.mp hc
    simp [Node.setChild, hi, nodeChild]
  | n48 pfx he n idx ch =>
    obtain ⟨s, hs, -⟩ := nodeChild_n48_eq_some.mp hc
    rw [setChild_n48 hs]
    exact nodeChild_n48_eq_some.mpr ⟨s, hs, Function.update_self s c' ch⟩
  | n256 pfx he n ch =>
    exact nodeChild_n256_eq_some.mpr ⟨Function.update_self b c' ch, hne⟩

theorem IndexInRange.setChild (h : node.IndexInRange) (b : UInt8) (c : Node) :
    (Node.setChild b c node).IndexInRange := by
  cases node with
  | n48 pfx he n idx ch =>
    simp only [Node.setChild]
    split_ifs <;> exact h
  | n4 pfx he n keys ch =>
    simp only [Node.setChild]
    split <;> trivial
  | n16 pfx he n keys ch =>
    simp only [Node.setChild]
    split <;> trivial
  | _ => trivial

/-- A call on a key below a child that panics there panics. -/
theorem onNode_under_none (h : node.IndexInRange) (hc : node.nodeChild b = some c) {op : SetOp}
    (hop : op.onNode c = none) : (op.under (node.nodePrefix ++ [b])).onNode node = none := by
  have hin := isInner_of_nodeChild hc
  cases op with
  | insert key =>
    have hkey : node.nodePrefix ++ [b] ++ key = node.nodePrefix ++ b :: key := by simp
    simp only [SetOp.under, SetOp.onNode] at hop ⊢
    rw [hkey, insertNode_eq hin h, insertInner_through]
    dsimp only
    rw [insertChild, hc, Option.map_some, hop]
    rfl
  | remove key =>
    have hkey : node.nodePrefix ++ [b] ++ key = node.nodePrefix ++ b :: key := by simp
    simp only [SetOp.under, SetOp.onNode] at hop ⊢
    rw [hkey, removeNode_eq hin h, removeInner_through]
    dsimp only
    rw [removeChild, hc, Option.map_some, hop]
    rfl

/-- A call on a key below a child is made there. -/
theorem onNode_under_some (h : node.IndexInRange) (hc : node.nodeChild b = some c) {op : SetOp}
    {changed : Bool} (hop : op.onNode c = some (c', changed)) (hne : c'.isEmpty = false) :
    (op.under (node.nodePrefix ++ [b])).onNode node = some (Node.setChild b c' node, changed) := by
  have hin := isInner_of_nodeChild hc
  cases op with
  | insert key =>
    have hkey : node.nodePrefix ++ [b] ++ key = node.nodePrefix ++ b :: key := by simp
    simp only [SetOp.under, SetOp.onNode] at hop ⊢
    rw [hkey, insertNode_eq hin h, insertInner_through]
    dsimp only
    rw [insertChild, hc, Option.map_some, hop]
    rfl
  | remove key =>
    have hkey : node.nodePrefix ++ [b] ++ key = node.nodePrefix ++ b :: key := by simp
    simp only [SetOp.under, SetOp.onNode] at hop ⊢
    rw [hkey, removeNode_eq hin h, removeInner_through]
    dsimp only
    rw [removeChild, hc, Option.map_some, hop]
    simp only [Option.map_some]
    rw [nodeChildIsEmpty_setChild hc, hne, Bool.and_false]
    rfl

/-- **Run below a child**: what fails there fails. -/
theorem Fails.of_child (hf : Fails c) (h : node.IndexInRange) (hc : node.nodeChild b = some c) :
    Fails node := by
  induction hf generalizing node with
  | now op hop => exact .now _ (onNode_under_none h hc hop)
  | @later c c' op changed hop hne _ ih =>
    refine .later _ (onNode_under_some h hc hop hne) ?_
      (ih (h.setChild b c') (nodeChild_setChild hc hne))
    exact isEmpty_of_isInner (by rw [isInner_setChild, isInner_of_nodeChild hc])

end Branch

section Counter

/-- One more child under `0xFF` of a 256-node. -/
theorem insertNode_n256 {ch : UInt8 → Node} (h : ch b = empty) :
    insertNode (n256 pfx he n ch) (pfx ++ [b]) =
      some (n256 pfx he ((n + 1) % 65536) (Function.update ch b (leaf [])), true) := by
  have hnone : (n256 pfx he n ch).nodeChild b = none := if_pos (by rw [h]; rfl)
  have hthrough := @insertInner_through (n256 pfx he n ch) [b] (insertChild (n256 pfx he n ch))
  have hrange : (n256 pfx he n ch).IndexInRange := trivial
  refine (insertNode_eq rfl hrange _).trans (hthrough.trans ?_)
  dsimp only
  rw [insertChild, hnone]
  rfl

/-- A child that goes leaves the counter of a 256-node alone. -/
theorem removeNode_n256 {ch : UInt8 → Node} (h : ch b = leaf []) :
    removeNode (n256 pfx he n ch) (pfx ++ [b]) =
      (n256 pfx he n (Function.update ch b empty)).nodeMaybeShrink.map (·, true) := by
  have hsome : (n256 pfx he n ch).nodeChild b = some (leaf []) :=
    nodeChild_n256_eq_some.mpr ⟨h, rfl⟩
  have hthrough := @removeInner_through (n256 pfx he n ch) [b] (removeChild (n256 pfx he n ch))
  have hdel : (n256 pfx he n (Function.update ch b empty)).nodeDelChild b =
      some (n256 pfx he n (Function.update ch b empty)) :=
    if_pos (by rw [Function.update_self]; rfl)
  have hrange : (n256 pfx he n ch).IndexInRange := trivial
  refine (removeNode_eq rfl hrange _).trans (hthrough.trans ?_)
  dsimp only
  rw [removeChild, hsome, Option.map_some]
  have hleaf : removeNode (leaf []) [] = some (empty, true) := rfl
  rw [hleaf]
  simp only [Option.map_some]
  rw [nodeChildIsEmpty_setChild hsome]
  refine (if_pos rfl).trans ?_
  rw [show Node.setChild b empty (n256 pfx he n ch) = n256 pfx he n (Function.update ch b empty) from rfl,
    hdel, Option.bind_some]

theorem nodeMaybeShrink_n256 {ch : UInt8 → Node} (hfull : 48 < (fullBytes ch).length) :
    (n256 pfx true n ch).nodeMaybeShrink = if n ≤ 48 then none else some (n256 pfx true n ch) := by
  unfold nodeMaybeShrink
  rw [if_neg (by simp [nodeHasEnd])]
  simp only [n256ToN48, if_neg (not_le.mpr hfull)]

/-- **The counter wraps**: adding and removing one child brings it to its maximum, then to zero,
    and the last removal panics. -/
theorem fails_n256 {ch : UInt8 → Node} (hfull : 48 < (fullBytes ch).length)
    (hlast : ch 0xFF = empty) (hn : n < 65536) : Fails (n256 pfx true n ch) := by
  induction hk : 65535 - n generalizing n with
  | zero =>
    obtain rfl : n = 65535 := by omega
    refine .later (.insert (pfx ++ [0xFF])) (insertNode_n256 hlast) rfl ?_
    refine .now (.remove (pfx ++ [0xFF])) ?_
    refine (removeNode_n256 (Function.update_self _ _ _)).trans ?_
    rw [Function.update_idem, ← hlast, Function.update_eq_self, nodeMaybeShrink_n256 hfull]
    rfl
  | succ k ih =>
    have hmod : (n + 1) % 65536 = n + 1 := Nat.mod_eq_of_lt (by omega)
    refine .later (.insert (pfx ++ [0xFF])) (insertNode_n256 hlast) rfl ?_
    rw [hmod]
    by_cases hlow : n + 1 ≤ 48
    · refine .now (.remove (pfx ++ [0xFF])) ?_
      refine (removeNode_n256 (Function.update_self _ _ _)).trans ?_
      rw [Function.update_idem, ← hlast, Function.update_eq_self, nodeMaybeShrink_n256 hfull,
        if_pos hlow]
      rfl
    · have hremove : removeNode (n256 pfx true (n + 1) (Function.update ch 0xFF (leaf [])))
          (pfx ++ [0xFF]) = some (n256 pfx true (n + 1) ch, true) := by
        refine (removeNode_n256 (Function.update_self _ _ _)).trans ?_
        rw [Function.update_idem, ← hlast, Function.update_eq_self, nodeMaybeShrink_n256 hfull,
          if_neg hlow]
        rfl
      exact .later (.remove (pfx ++ [0xFF])) hremove rfl (ih (by omega) (by omega))

end Counter

section Filling

/-- A sound node with leaves below the first `k` bytes and a key of its own. -/
structure Wide (r : Bytes) (k : ℕ) (node : Node) : Prop where
  inner : node.isInner = true
  sound : node.Sound
  nodePrefix : node.nodePrefix = r
  nodeHasEnd : node.nodeHasEnd = true
  count : node.nodeNChildren = k
  child : ∀ b, node.nodeChild b = if b.toNat < k then some (leaf []) else none

theorem AddShape.nodeNChildren (h : AddShape b c node node') (hlt : node.nodeNChildren < 65535) :
    node'.nodeNChildren = node.nodeNChildren + 1 := by
  cases h with
  | @n256 pfx he n ch => exact Nat.mod_eq_of_lt (Nat.succ_lt_succ hlt)
  | _ => rfl

variable {r : Bytes} {k : ℕ}

theorem Wide.addsSafely (h : Wide r k node) (hk : k < 49) : node.AddsSafely := by
  have hlast : node.nodeChild 0xFF = none := by
    rw [h.child, if_neg (by rw [show (0xFF : UInt8).toNat = 255 from rfl]; omega)]
  have hcount := h.count
  have hsound := h.sound
  cases node with
  | n48 pfx he n idx ch =>
    intro _
    exact (IndexSound.nodeChild_eq_none hsound).mp hlast
  | n256 pfx he n ch =>
    obtain rfl : n = k := hcount
    exact Nat.lt_trans (Nat.succ_lt_succ hk) (by decide)
  | _ => trivial

/-- **One more child** under the next byte. -/
theorem Wide.insert (h : Wide r k node) (hk : k < 49) :
    ∃ node', node.insertNode (r ++ [UInt8.ofNat k]) = some (node', true) ∧
      Wide r (k + 1) node' := by
  have hval : (UInt8.ofNat k).toNat = k := UInt8.toNat_ofNat_of_lt' (show k < 256 by omega)
  have hnone : node.nodeChild (UInt8.ofNat k) = none := by
    rw [h.child, hval, if_neg (lt_irrefl k)]
  obtain ⟨g, node', hgrow, hadd, hsound, hview⟩ :=
    h.sound.add h.inner (h.addsSafely hk) hnone (c := leaf []) rfl
  have hshape := h.sound.addShape h.inner (h.addsSafely hk) hnone hgrow hadd
  refine ⟨node', ?_, hview.inner, hsound, hview.nodePrefix.trans h.nodePrefix,
    hview.nodeHasEnd.trans h.nodeHasEnd, ?_, fun b => ?_⟩
  · rw [← h.nodePrefix, insertNode_eq h.inner h.sound.indexInRange, insertInner_through]
    dsimp only
    rw [insertChild, hnone, Option.map_none]
    simp only [hgrow, Option.bind_some, hadd, Option.map_some]
  · rw [hshape.nodeNChildren (by rw [h.count]; omega), h.count]
  · rw [hview.child, h.child]
    by_cases hb : b = UInt8.ofNat k
    · rw [if_pos hb, hb, hval, if_pos (Nat.lt_succ_self k)]
    · have hne : b.toNat ≠ k := by
        rintro rfl
        exact hb UInt8.ofNat_toNat.symm
      rw [if_neg hb]
      exact if_congr (by omega) rfl rfl

/-- A node with 49 children is a 256-node. -/
theorem Wide.fails_full (h : Wide r 49 node) : Fails node := by
  obtain ⟨hin, hsound, hpfx, hend, hcount, hchild⟩ := h
  cases node with
  | empty => cases hin
  | leaf sfx => cases hin
  | n4 pfx he n keys ch =>
    obtain rfl : n = 49 := hcount
    exact absurd (SmallSound.le hsound) (by decide)
  | n16 pfx he n keys ch =>
    obtain rfl : n = 49 := hcount
    exact absurd (SmallSound.le hsound) (by decide)
  | n48 pfx he n idx ch =>
    obtain rfl : n = 49 := hcount
    exact absurd (IndexSound.le hsound) (by decide)
  | n256 pfx he n ch =>
    obtain rfl : he = true := hend
    have hlast : ch 0xFF = empty := by
      have hnone := hchild 0xFF
      rw [if_neg (by decide)] at hnone
      by_contra hne
      exact absurd ((if_neg (by rw [isEmpty_eq_true]; exact hne)).symm.trans hnone) (by simp)
    refine fails_n256 ?_ hlast hsound.2
    have hfull : ∀ i < 49, (ch (UInt8.ofNat i)).isEmpty = false := by
      intro i hi
      have hval : (UInt8.ofNat i).toNat = i := UInt8.toNat_ofNat_of_lt' (show i < 256 by omega)
      have hsome := hchild (UInt8.ofNat i)
      rw [hval, if_pos hi] at hsome
      obtain ⟨heq, -⟩ := nodeChild_n256_eq_some.mp hsome
      rw [heq]
      rfl
    rw [length_fullBytes]
    have hcard := Finset.card_le_card_of_injOn (s := Finset.range 49)
      (t := Finset.univ.filter fun b => (ch b).isEmpty = false) UInt8.ofNat
      (fun i hi => by simpa using hfull i (Finset.mem_range.mp hi))
      (fun i hi j hj heq => ofNat_inj_of_lt
        (lt_trans (Finset.mem_range.mp hi) (by decide)) (lt_trans (Finset.mem_range.mp hj) (by decide)) heq)
    rw [Finset.card_range] at hcard
    exact Nat.lt_of_succ_le hcard

theorem Wide.fails (h : Wide r k node) (hk : k ≤ 49) : Fails node := by
  induction hd : 49 - k generalizing k node with
  | zero =>
    obtain rfl : k = 49 := by omega
    exact h.fails_full
  | succ d ih =>
    obtain ⟨node', hinsert, h'⟩ := h.insert (by omega)
    exact .later (.insert _) hinsert (isEmpty_of_isInner h'.inner) (ih h' (by omega) (by omega))

/-- **A leaf** can be extended to a node of every size. -/
theorem fails_leaf (r : Bytes) : Fails (leaf r) := by
  obtain ⟨node', hadd, hfork⟩ := (n4Empty_fork r true).add (b := 0) (c := leaf [])
    (by decide) rfl rfl
  have hinsert : insertNode (leaf r) (r ++ [0]) = some (node', true) := by
    rw [insertNode, insertLeaf, if_neg (by simp)]
    dsimp only
    rw [commonPrefix_append, List.take_length, List.drop_length, List.drop_left]
    simp only [hadd, Option.map_some]
  obtain ⟨hshape, hsound, hchild⟩ := hfork
  have hwide : Wide r 1 node' := by
    obtain ⟨keys, ch, rfl⟩ := hshape
    refine ⟨rfl, hsound, rfl, rfl, rfl, fun b => ?_⟩
    rw [hchild, List.lookup_cons]
    by_cases hb : b = 0
    · rw [hb, beq_self_eq_true, if_pos (by decide)]
    · have hpos : ¬b.toNat < 1 := fun hlt => hb (UInt8.toNat_inj.mp (Nat.lt_one_iff.mp hlt))
      rw [beq_eq_false_iff_ne.mpr hb, if_neg hpos]
      rfl
  exact .later (.insert _) hinsert (isEmpty_of_isInner hwide.inner) (hwide.fails (by decide))

end Filling

section Enumerated

theorem exists_of_mapM {α β : Type} {f : α → Option β} {l : List α} {ys : List β}
    (h : l.mapM f = some ys) {a : α} (ha : a ∈ l) : ∃ y, f a = some y := by
  induction l generalizing ys with
  | nil => cases ha
  | cons x l ih =>
    rw [List.mapM_cons] at h
    obtain ⟨y, hy, h⟩ := Option.bind_eq_some_iff.mp h
    obtain ⟨ys', hys', -⟩ := Option.bind_eq_some_iff.mp h
    obtain rfl | ha := List.mem_cons.mp ha
    · exact ⟨y, hy⟩
    · exact ih hys' ha

/-- The key `0` goes to the front of a small node, whatever the others are. -/
theorem insertPos_zero {cap : ℕ} {keys : Fin cap → UInt8} : insertPos n keys 0 = 0 := by
  have hnone : ∀ x : UInt8, ¬x < 0 := fun x hx => Nat.not_lt_zero _ (UInt8.lt_iff_toNat_lt.mp hx)
  unfold insertPos
  cases List.finRange cap with
  | nil => rfl
  | cons i l => rw [List.takeWhile_cons, if_neg (by simp [hnone]), List.length_nil]

theorem map_findKey_front {cap : ℕ} {keys : Fin cap → UInt8} {ch : Fin cap → Node} (hcap : 0 < cap) :
    (findKey (n + 1) (shiftIn (insertPos n keys 0) n 0 keys) 0).map
      (shiftIn (insertPos n keys 0) n c ch) = some c := by
  obtain ⟨m, rfl⟩ := Nat.exists_eq_succ_of_ne_zero (Nat.ne_of_gt hcap)
  have hkey : shiftIn 0 n 0 keys 0 = 0 := shiftIn_of_eq rfl
  have hchild : shiftIn 0 n c ch 0 = c := shiftIn_of_eq rfl
  have hfirst : findKey (n + 1) (shiftIn 0 n 0 keys) 0 = some 0 := by
    rw [findKey, List.finRange_succ, List.find?_cons_of_pos]
    simp [hkey]
  rw [insertPos_zero, hfirst, Option.map_some, hchild]

/-- What is added under `0` is found there, in any node. -/
theorem nodeChild_nodeAddChild (hin : node.isInner = true) (hne : c.isEmpty = false)
    (h : node.nodeAddChild 0 c = some node') : node'.nodeChild 0 = some c := by
  cases node with
  | empty => cases hin
  | leaf sfx => cases hin
  | n4 pfx he n keys ch =>
    rw [nodeAddChild] at h
    split_ifs at h
    obtain rfl := Option.some.inj h
    exact map_findKey_front (by decide)
  | n16 pfx he n keys ch =>
    rw [nodeAddChild] at h
    split_ifs at h
    obtain rfl := Option.some.inj h
    exact map_findKey_front (by decide)
  | n48 pfx he n idx ch =>
    obtain ⟨s, -, rfl⟩ := Option.map_eq_some_iff.mp h
    exact nodeChild_n48_eq_some.mpr ⟨s, Function.update_self _ _ _, Function.update_self _ _ _⟩
  | n256 pfx he n ch =>
    obtain rfl := Option.some.inj h
    exact nodeChild_n256_eq_some.mpr ⟨Function.update_self _ _ _, hne⟩

theorem IndexInRange.nodeMaybeGrow (h : node.IndexInRange) (hgrow : node.nodeMaybeGrow = some g) :
    g.IndexInRange := by
  cases node with
  | n4 pfx he n keys ch =>
    rw [Node.nodeMaybeGrow] at hgrow
    split_ifs at hgrow <;> (obtain rfl := Option.some.inj hgrow; trivial)
  | n16 pfx he n keys ch =>
    rw [Node.nodeMaybeGrow] at hgrow
    split_ifs at hgrow
    · obtain rfl := Option.some.inj hgrow
      intro b hb
      dsimp only at hb ⊢
      split at hb
      · next i hi =>
        have hlt := i.isLt
        rw [UInt8.toNat_ofNat_of_lt' (show i.val < 256 by omega)]
        omega
      · exact absurd rfl hb
    · obtain rfl := Option.some.inj hgrow
      trivial
  | n48 pfx he n idx ch =>
    rw [Node.nodeMaybeGrow] at hgrow
    split_ifs at hgrow
    · rw [n48ToN256] at hgrow
      split_ifs at hgrow
      obtain rfl := Option.some.inj hgrow
      trivial
    · obtain rfl := Option.some.inj hgrow
      exact h
  | _ =>
    obtain rfl := Option.some.inj hgrow
    trivial

theorem IndexInRange.nodeAddChild (h : node.IndexInRange) (hadd : node.nodeAddChild b c = some node') :
    node'.IndexInRange := by
  cases node with
  | n48 pfx he n idx ch =>
    obtain ⟨s, -, rfl⟩ := Option.map_eq_some_iff.mp hadd
    intro b' hb'
    by_cases hb : b' = b
    · rw [hb, Function.update_self, toNat_ofNat_slot]
      exact s.isLt
    · rw [Function.update_of_ne hb] at hb' ⊢
      exact h b' hb'
  | n4 pfx he n keys ch =>
    rw [Node.nodeAddChild] at hadd
    split_ifs at hadd
    obtain rfl := Option.some.inj hadd
    trivial
  | n16 pfx he n keys ch =>
    rw [Node.nodeAddChild] at hadd
    split_ifs at hadd
    obtain rfl := Option.some.inj hadd
    trivial
  | _ =>
    obtain rfl := Option.some.inj hadd
    trivial

/-- A node without a child under `0` panics on a key there, or gets a leaf. -/
theorem fails_of_no_child (hin : node.isInner = true) (h : node.IndexInRange)
    (hnone : node.nodeChild 0 = none) : Fails node := by
  have hinsert : (SetOp.insert (node.nodePrefix ++ [0])).onNode node =
      node.nodeMaybeGrow.bind fun grown => (grown.nodeAddChild 0 (leaf [])).map (·, true) := by
    refine (insertNode_eq hin h _).trans ((insertInner_through [0] _).trans ?_)
    dsimp only
    rw [insertChild, hnone, Option.map_none]
  cases hgrow : node.nodeMaybeGrow with
  | none => exact .now _ (hinsert.trans (by rw [hgrow]; rfl))
  | some g =>
    rw [hgrow, Option.bind_some] at hinsert
    cases hadd : g.nodeAddChild 0 (leaf []) with
    | none => exact .now _ (hinsert.trans (by rw [hadd]; rfl))
    | some node' =>
      have hg := isInner_nodeMaybeGrow hin hgrow
      refine .later _ (hinsert.trans (by rw [hadd]; rfl))
        (isEmpty_of_isInner (isInner_nodeAddChild hg hadd)) ?_
      exact (fails_leaf []).of_child ((h.nodeMaybeGrow hgrow).nodeAddChild hadd)
        (nodeChild_nodeAddChild hg rfl hadd)

/-- Small nodes: the child under `0` can be enumerated. -/
theorem exists_collectAll_small {cap : ℕ} {keys : Fin cap → UInt8} {ch : Fin cap → Node}
    {path : Fin cap → Bytes} {below : List (List Bytes)}
    (h : ((List.finRange cap).filter (·.val < n)).mapM (fun i => collectAll (ch i) (path i)) = some below)
    {i : Fin cap} (hi : findKey n keys b = some i) : ∃ l, collectAll (ch i) (path i) = some l := by
  have hlt : i.val < n := by
    have hfound := List.find?_some hi
    simp only [Bool.and_eq_true, decide_eq_true_eq] at hfound
    exact hfound.1
  exact exists_of_mapM h (List.mem_filter.mpr ⟨List.mem_finRange i, by simpa using hlt⟩)

/-- **Every node that can be enumerated fails** in some run. -/
theorem fails_of_collectAll {path : Bytes} {l : List Bytes} (h : node.collectAll path = some l) :
    Fails node := by
  induction node generalizing path l with
  | empty => exact .later (.insert []) rfl rfl (fails_leaf [])
  | leaf sfx => exact fails_leaf sfx
  | n4 pfx he n keys ch ih =>
    obtain ⟨below, hbelow, -⟩ := Option.map_eq_some_iff.mp h
    cases hfind : findKey n keys 0 with
    | none => exact fails_of_no_child rfl trivial (Option.map_eq_none_iff.mpr hfind)
    | some i =>
      obtain ⟨l', hl'⟩ := exists_collectAll_small hbelow hfind
      exact (ih i hl').of_child trivial (Option.map_eq_some_iff.mpr ⟨i, hfind, rfl⟩)
  | n16 pfx he n keys ch ih =>
    obtain ⟨below, hbelow, -⟩ := Option.map_eq_some_iff.mp h
    cases hfind : findKey n keys 0 with
    | none => exact fails_of_no_child rfl trivial (Option.map_eq_none_iff.mpr hfind)
    | some i =>
      obtain ⟨l', hl'⟩ := exists_collectAll_small hbelow hfind
      exact (ih i hl').of_child trivial (Option.map_eq_some_iff.mpr ⟨i, hfind, rfl⟩)
  -- The listing has looked at every slot, so no index is out of range.
  | n48 pfx he n idx ch ih =>
    obtain ⟨below, hbelow, -⟩ := Option.map_eq_some_iff.mp h
    have hrange : (n48 pfx he n idx ch).IndexInRange := by
      intro b hb
      obtain ⟨y, hy⟩ := exists_of_mapM hbelow (mem_allBytes b)
      rw [if_neg hb] at hy
      split_ifs at hy with hlt
      exact hlt
    cases hc : (n48 pfx he n idx ch).nodeChild 0 with
    | none => exact fails_of_no_child rfl hrange hc
    | some c =>
      obtain ⟨s, hs, rfl⟩ := nodeChild_n48_eq_some.mp hc
      obtain ⟨y, hy⟩ := exists_of_mapM hbelow (mem_allBytes 0)
      have hval : (idx 0).toNat = s.val := by rw [hs, toNat_ofNat_slot]
      have hslot : ∀ hlt : (idx 0).toNat < 48, (⟨(idx 0).toNat, hlt⟩ : Fin 48) = s :=
        fun hlt => Fin.ext hval
      rw [if_neg (by rw [hs]; exact ofNat_slot_ne_nil s), dif_pos (by have := s.isLt; omega),
        hslot] at hy
      exact (ih s hy).of_child hrange hc
  | n256 pfx he n ch ih =>
    obtain ⟨below, hbelow, -⟩ := Option.map_eq_some_iff.mp h
    cases hc : (n256 pfx he n ch).nodeChild 0 with
    | none => exact fails_of_no_child rfl trivial hc
    | some c =>
      obtain ⟨rfl, -⟩ := nodeChild_n256_eq_some.mp hc
      obtain ⟨y, hy⟩ := exists_of_mapM hbelow (mem_allBytes 0)
      exact (ih 0 hy).of_child trivial hc

end Enumerated

end Node

namespace IndexTree

variable {t : IndexTree} {data : Bytes}

/-- A run on the root is one on the tree. -/
theorem exists_runOps_eq_none (h : t.root.Fails) : ∃ ops, t.runOps ops = none := by
  generalize hroot : t.root = node at h
  induction h generalizing t with
  | now op hop =>
    refine ⟨[op], ?_⟩
    have hnone : op.onTree t = none := by
      cases op <;> exact Option.map_eq_none_iff.mpr (by rw [hroot]; exact hop)
    rw [runOps, List.foldlM_cons, hnone]
    rfl
  | @later node node' op changed hop hne _ ih =>
    have hsome : ∃ t', (op.onTree t).map Prod.fst = some t' ∧ t'.root = node' := by
      cases op with
      | insert key =>
        have hinsert : t.root.insertNode key = some (node', changed) := by rw [hroot]; exact hop
        rw [SetOp.onTree, IndexTree.insert, hinsert]
        cases changed <;> exact ⟨_, rfl, rfl⟩
      | remove key =>
        have hremove : t.root.removeNode key = some (node', changed) := by rw [hroot]; exact hop
        rw [SetOp.onTree, IndexTree.remove, hremove]
        cases changed <;> exact ⟨_, rfl, rfl⟩
    obtain ⟨t', ht', hroot'⟩ := hsome
    obtain ⟨ops, hops⟩ := ih hroot'
    refine ⟨op :: ops, ?_⟩
    rw [runOps, List.foldlM_cons, ht']
    exact hops

/-- **What is decoded safely**: data that is no document of the tree, which is rejected. -/
theorem decodesSafely_iff : DecodesSafely data ↔ ¬Document data := by
  constructor
  · intro hsafe hdoc
    obtain ⟨t, ht⟩ := exists_fromBytes_iff.mpr hdoc
    obtain ⟨⟨l, hl, -⟩, hruns⟩ := hsafe t ht
    obtain ⟨ops, hops⟩ := exists_runOps_eq_none (Node.fails_of_collectAll hl)
    obtain ⟨t', ht', -⟩ := hruns ops
    rw [hops] at ht'
    cases ht'
  · intro hdoc t ht
    exact absurd (exists_fromBytes_iff.mp ⟨t, ht⟩) hdoc

/-- A run in which every call, on the tree that the calls before it leave, is in `G`. -/
inductive CallsWithin (G : IndexTree → SetOp → Prop) : IndexTree → List SetOp → Prop
  | nil (t : IndexTree) : CallsWithin G t []
  | cons {t : IndexTree} {op : SetOp} {ops : List SetOp} (h : G t op)
      (hnext : ∀ t', (op.onTree t).map Prod.fst = some t' → CallsWithin G t' ops) :
      CallsWithin G t (op :: ops)

/-- **A good document**: a tree that represents a set survives every run without loss, and can be
    enumerated after it. -/
theorem Represents.runOps {s : Finset Bytes} {ops : List SetOp} (h : Represents t s)
    (hlen : t.len < 2 ^ 64) (hops : CallsWithin SetOp.Lossless t ops) :
    ∃ t', t.runOps ops = some t' ∧ ∃ l, t'.keys = some l ∧ t'.len = l.length := by
  induction hops generalizing s with
  | nil t =>
    obtain ⟨l, hl, hnodup, hmem⟩ := h.keys
    refine ⟨t, rfl, l, hl, ?_⟩
    rw [h.len, ← List.toFinset_card_of_nodup hnodup]
    congr 1
    ext k
    rw [List.mem_toFinset, hmem]
  | @cons t op ops hop _ ih =>
    have hstep : ∃ t' s', (op.onTree t).map Prod.fst = some t' ∧ Represents t' s' ∧
        t'.len < 2 ^ 64 := by
      cases op with
      | insert key =>
        obtain ⟨t', hinsert, hrep, -⟩ := h.insert hop.1 hop.2
        refine ⟨t', _, by rw [SetOp.onTree, hinsert]; rfl, hrep, ?_⟩
        have hcard := Finset.card_insert_le key s
        have hbound : t.len + 1 < 2 ^ 64 := hop.2
        rw [hrep.len]
        rw [h.len] at hbound
        omega
      | remove key =>
        obtain ⟨t', hremove, hrep, -⟩ := h.remove key hlen
        refine ⟨t', _, by rw [SetOp.onTree, hremove]; rfl, hrep, ?_⟩
        have hcard := Finset.card_erase_le (s := s) (a := key)
        rw [hrep.len]
        rw [h.len] at hlen
        omega
    obtain ⟨t', s', ht', hrep, hlen'⟩ := hstep
    obtain ⟨t'', hrun, hkeys⟩ := ih t' ht' hrep hlen'
    refine ⟨t'', ?_, hkeys⟩
    rw [IndexTree.runOps, List.foldlM_cons, ht']
    exact hrun

/-- A key count of five in front of no key. -/
def miscounted : Bytes := [0, 0, 0, 5, 0]

/-- A 48-node without children whose index entries all name a slot behind the last one. -/
def misindexed : Bytes := [0, 0, 0, 0, 4, 0, 0, 0] ++ List.replicate 256 48

/-- Both are accepted; the first tree has a wrong length, the second cannot be enumerated. -/
theorem not_decodesSafely : ¬DecodesSafely miscounted ∧ ¬DecodesSafely misindexed := by
  constructor
  · intro hsafe
    obtain ⟨⟨l, hl, hlen⟩, -⟩ := hsafe ⟨.empty, 5⟩ rfl
    obtain rfl := Option.some.inj hl
    cases hlen
  · intro hsafe
    have hdecode : (fromBytes misindexed).toOption.all fun t => t.keys.isNone := by
      decide +kernel
    cases hdata : fromBytes misindexed with
    | error e =>
      have hok : (fromBytes misindexed).toOption.isSome = true := by decide +kernel
      rw [hdata] at hok
      cases hok
    | ok t =>
      obtain ⟨⟨l, hl, -⟩, -⟩ := hsafe t hdata
      rw [hdata] at hdecode
      have hnone : t.keys.isNone = true := hdecode
      rw [hl] at hnone
      cases hnone

end IndexTree

end Arkiv
