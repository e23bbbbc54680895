import Mathlib
import Arkiv.IndexTree.Order
import Arkiv.IndexTree.Same
import Arkiv.Registry.Invariant

/-!
# Sizes of prefixes and suffixes

Splits cut prefixes and merges put them together again with the branch byte, so
that no node of a tree reaches deeper than the longest key that went in. The
encoder, which has one byte for the length of a prefix and two for the length of
a suffix, is then safe.

## Main definitions

- `Node.Within` — a node inside a tree, with the number of path bytes above it
- `Node.Reaches` — no node of a tree ends deeper than a bound
- `Node.Writes` — the bytes of a node with every length in full
- `SizeSafe`, `EncodesLengths` — what the encoder relies on, and what it does
- `sizeSafe_run` — every tree that a run leaves is safe
-/

namespace Arkiv

open ByteString

theorem isSome_mapM {α β : Type} {f : α → Option β} {l : List α}
    (h : ∀ a ∈ l, (f a).isSome = true) : (l.mapM f).isSome = true := by
  induction l with
  | nil => rfl
  | cons a l ih =>
    obtain ⟨b, hb⟩ := Option.isSome_iff_exists.mp (h a List.mem_cons_self)
    obtain ⟨bs, hbs⟩ := Option.isSome_iff_exists.mp (ih fun x hx => h x (List.mem_cons_of_mem a hx))
    rw [List.mapM_cons, hb, hbs]
    rfl

namespace Node

/-- A node inside a tree, behind a number of path bytes. -/
inductive Within : Node → ℕ → Node → Prop
  | self (node : Node) : Within node 0 node
  | deeper {node c sub : Node} {d : ℕ} (hchild : node.Child c) (h : Within c d sub) :
      Within node (node.nodePrefix.length + 1 + d) sub

/-- The bytes that a node itself carries. -/
def ownBytes : Node → Bytes
  | leaf sfx => sfx
  | node => node.nodePrefix

/-- Behind `d` path bytes, all leaves and inner nodes of the tree end at depth `L` or above. -/
def Reaches (L d : ℕ) (node : Node) : Prop :=
  ∀ e sub, Within node e sub → sub.isEmpty = false → d + e + sub.ownBytes.length ≤ L

variable {node node' c : Node} {b : UInt8} {L d : ℕ} {key : Bytes}

theorem Within.eq_of_not_inner {sub : Node} {e : ℕ} (h : Within node e sub)
    (hin : node.isInner = false) : e = 0 ∧ sub = node := by
  cases h with
  | self => exact ⟨rfl, rfl⟩
  | deeper hchild _ =>
    cases node with
    | empty => cases hchild
    | leaf sfx => cases hchild
    | _ => cases hin

theorem reaches_empty : Reaches L d empty := by
  intro e sub h hne
  obtain ⟨-, rfl⟩ := h.eq_of_not_inner rfl
  cases hne

theorem reaches_leaf {sfx : Bytes} : Reaches L d (leaf sfx) ↔ d + sfx.length ≤ L := by
  constructor
  · intro h
    exact h 0 (leaf sfx) (.self _) rfl
  · intro hle e sub h _
    obtain ⟨rfl, rfl⟩ := h.eq_of_not_inner rfl
    exact hle

theorem ownBytes_of_isInner (hin : node.isInner = true) : node.ownBytes = node.nodePrefix := by
  cases node <;> first | rfl | cases hin

theorem reaches_inner (hin : node.isInner = true) : Reaches L d node ↔
    d + node.nodePrefix.length ≤ L ∧
      ∀ c, node.Child c → Reaches L (d + node.nodePrefix.length + 1) c := by
  constructor
  · intro h
    refine ⟨?_, fun c hc e sub hsub hne => ?_⟩
    · rw [← ownBytes_of_isInner hin]
      exact h 0 node (.self _) (isEmpty_of_isInner hin)
    · have hle := h _ sub (.deeper hc hsub) hne
      omega
  · rintro ⟨hle, hchild⟩ e sub hsub hne
    cases hsub with
    | self =>
      rw [ownBytes_of_isInner hin]
      exact hle
    | deeper hc hsub =>
      have hle' := hchild _ hc _ sub hsub hne
      omega

theorem child_setPrefix (pfx : Bytes) {x : Node} : (node.setPrefix pfx).Child x ↔ node.Child x := by
  cases node <;> exact Iff.rfl

theorem child_setHasEnd (he : Bool) {x : Node} : (node.setHasEnd he).Child x ↔ node.Child x := by
  cases node <;> exact Iff.rfl

theorem Reaches.setHasEnd (h : Reaches L d node) (he : Bool) : Reaches L d (node.setHasEnd he) := by
  cases hin : node.isInner with
  | true =>
    rw [reaches_inner (by rw [isInner_setHasEnd, hin])]
    simp only [nodePrefix_setHasEnd, child_setHasEnd]
    exact (reaches_inner hin).mp h
  | false => cases node <;> first | exact h | cases hin

/-- A merge: the prefix of the parent, the branch byte and what the child carries. -/
theorem reaches_prependInto {p : Bytes} :
    Reaches L d (prependInto p b c) ↔ Reaches L (d + p.length + 1) c := by
  cases hin : c.isInner with
  | true =>
    have heq : prependInto p b c = c.setPrefix (p ++ b :: c.nodePrefix) := by
      cases c <;> first | rfl | cases hin
    rw [heq, reaches_inner (by rw [isInner_setPrefix, hin]), reaches_inner hin,
      nodePrefix_setPrefix hin]
    simp only [child_setPrefix, List.length_append, List.length_cons]
    have hdepth : d + (p.length + (c.nodePrefix.length + 1)) =
        d + p.length + 1 + c.nodePrefix.length := by omega
    rw [hdepth]
  | false =>
    cases c with
    | empty => exact iff_of_true reaches_empty reaches_empty
    | leaf sfx =>
      rw [prependInto, reaches_leaf, reaches_leaf, List.length_append, List.length_cons]
      omega
    | _ => cases hin

theorem Fork.reaches {pfx : Bytes} {he : Bool} {kids : List (UInt8 × Node)}
    (h : Fork pfx he kids node) (hpfx : d + pfx.length ≤ L)
    (hkids : ∀ kid ∈ kids, Reaches L (d + pfx.length + 1) kid.2) : Reaches L d node := by
  obtain ⟨keys, ch, heq⟩ := h.shape
  have hin : node.isInner = true := by rw [heq]; rfl
  have hnode : node.nodePrefix = pfx := by rw [heq]; rfl
  rw [reaches_inner hin, hnode]
  refine ⟨hpfx, fun c hc => ?_⟩
  obtain ⟨b, hb⟩ := h.exists_kid hc
  exact hkids (b, c) hb

section Kinds

variable {g x : Node}

theorem nodePrefix_setChild : (Node.setChild b c node).nodePrefix = node.nodePrefix := by
  cases node <;> simp only [Node.setChild]
  all_goals first | rfl | (split <;> rfl)

theorem nodePrefix_nodeMaybeGrow (h : node.nodeMaybeGrow = some g) :
    g.nodePrefix = node.nodePrefix := by
  cases node with
  | n48 pfx he n idx ch =>
    rw [nodeMaybeGrow] at h
    split at h
    · unfold n48ToN256 at h
      split at h
      · obtain rfl := Option.some.inj h
        rfl
      · cases h
    · obtain rfl := Option.some.inj h
      rfl
  | n4 pfx he n keys ch =>
    rw [nodeMaybeGrow] at h
    split at h <;> (obtain rfl := Option.some.inj h; rfl)
  | n16 pfx he n keys ch =>
    rw [nodeMaybeGrow] at h
    split at h <;> (obtain rfl := Option.some.inj h; rfl)
  | _ =>
    obtain rfl := Option.some.inj h
    rfl

theorem nodePrefix_nodeAddChild (h : node.nodeAddChild b c = some g) :
    g.nodePrefix = node.nodePrefix := by
  cases node with
  | n48 pfx he n idx ch =>
    obtain ⟨s, -, rfl⟩ := Option.map_eq_some_iff.mp h
    rfl
  | n4 pfx he n keys ch =>
    rw [nodeAddChild] at h
    split at h
    · obtain rfl := Option.some.inj h
      rfl
    · cases h
  | n16 pfx he n keys ch =>
    rw [nodeAddChild] at h
    split at h
    · obtain rfl := Option.some.inj h
      rfl
    · cases h
  | _ =>
    obtain rfl := Option.some.inj h
    rfl

theorem nodePrefix_nodeDelChild (h : node.nodeDelChild b = some g) :
    g.nodePrefix = node.nodePrefix := by
  cases node with
  | n48 pfx he n idx ch =>
    rw [nodeDelChild] at h
    split_ifs at h
    all_goals
      obtain rfl := Option.some.inj h
      rfl
  | n4 pfx he n keys ch =>
    rw [nodeDelChild] at h
    split at h <;> (obtain rfl := Option.some.inj h; rfl)
  | n16 pfx he n keys ch =>
    rw [nodeDelChild] at h
    split at h <;> (obtain rfl := Option.some.inj h; rfl)
  | n256 pfx he n ch =>
    rw [nodeDelChild] at h
    split at h <;> (obtain rfl := Option.some.inj h; simp only [nodePrefix])
  | _ =>
    obtain rfl := Option.some.inj h
    rfl

/-- What shrinking leaves: nothing, a child that is merged into the node, or a node of another size
    with the same prefix and children. -/
theorem nodeMaybeShrink_cases (hin : node.isInner = true) (h : node.nodeMaybeShrink = some g) :
    g = empty ∨ (∃ b c, node.Child c ∧ g = prependInto node.nodePrefix b c) ∨
      (g.isInner = true ∧ g.nodePrefix = node.nodePrefix ∧
        ∀ x, g.Child x → x = empty ∨ node.Child x) := by
  unfold nodeMaybeShrink at h
  split at h
  · exact .inl (Option.some.inj h).symm
  -- Only a 4-way node is merged into its child; the others take the next smaller kind.
  cases node with
  | empty => cases hin
  | leaf sfx => cases hin
  | n4 pfx he n keys ch =>
    simp only at h
    split at h
    · next hn => exact .inr (.inl ⟨keys 0, ch 0, ⟨0, by simp [hn.1], rfl⟩, (Option.some.inj h).symm⟩)
    · obtain rfl := Option.some.inj h
      exact .inr (.inr ⟨rfl, rfl, fun x hx => .inr hx⟩)
  | n16 pfx he n keys ch =>
    simp only at h
    split at h
    · obtain rfl := Option.some.inj h
      refine .inr (.inr ⟨rfl, rfl, ?_⟩)
      rintro x ⟨i, hi, rfl⟩
      dsimp only
      rw [if_pos hi]
      exact .inr ⟨_, hi, rfl⟩
    · obtain rfl := Option.some.inj h
      exact .inr (.inr ⟨rfl, rfl, fun x hx => .inr hx⟩)
  | n48 pfx he n idx ch =>
    simp only at h
    split at h
    · unfold n48ToN16 at h
      dsimp only at h
      split at h
      · obtain rfl := Option.some.inj h
        refine .inr (.inr ⟨rfl, rfl, ?_⟩)
        rintro x ⟨i, hi, rfl⟩
        dsimp only
        split
        · exact .inl rfl
        · split
          · exact .inl rfl
          · split
            · exact .inr ⟨_, rfl⟩
            · exact .inl rfl
      · cases h
    · obtain rfl := Option.some.inj h
      exact .inr (.inr ⟨rfl, rfl, fun x hx => .inr hx⟩)
  | n256 pfx he n ch =>
    simp only at h
    split at h
    · unfold n256ToN48 at h
      dsimp only at h
      split at h
      · obtain rfl := Option.some.inj h
        refine .inr (.inr ⟨rfl, rfl, ?_⟩)
        rintro x ⟨s, rfl⟩
        dsimp only
        cases (fullBytes ch)[s.val]? with
        | none => exact .inl rfl
        | some b => exact .inr ⟨b, rfl⟩
      · cases h
    · obtain rfl := Option.some.inj h
      exact .inr (.inr ⟨rfl, rfl, fun x hx => .inr hx⟩)

end Kinds

/-- A child that is nothing or an old one reaches no deeper. -/
theorem reaches_of_child {x : Node} (hchild : ∀ c, node.Child c → Reaches L d c)
    (hx : x = empty ∨ node.Child x) : Reaches L d x := by
  obtain rfl | hx := hx
  · exact reaches_empty
  · exact hchild x hx

theorem Reaches.nodeMaybeShrink (hin : node.isInner = true) (h : Reaches L d node)
    (hshrink : node.nodeMaybeShrink = some node') : Reaches L d node' := by
  obtain ⟨hpfx, hchild⟩ := (reaches_inner hin).mp h
  obtain rfl | ⟨b, c, hc, rfl⟩ | ⟨hin', heq, hchild'⟩ := nodeMaybeShrink_cases hin hshrink
  · exact reaches_empty
  · exact reaches_prependInto.mpr (hchild c hc)
  · rw [reaches_inner hin', heq]
    exact ⟨hpfx, fun x hx => reaches_of_child hchild (hchild' x hx)⟩

/-- **An insertion** reaches as deep as its key. -/
theorem Inserts.reaches {new : Bool} (h : Inserts node key node' new) (hv : Reaches L d node)
    (hkey : d + key.length ≤ L) : Reaches L d node' := by
  -- By induction on the descent; the depth `d` grows by the bytes that the key has already spent.
  induction h generalizing d with
  | fresh key => exact reaches_leaf.mpr hkey
  | present sfx => exact hv
  | @extend p rest b node' hfork =>
    rw [List.length_append, List.length_cons] at hkey
    refine hfork.reaches (by omega) fun kid hkid => ?_
    obtain rfl := List.mem_singleton.mp hkid
    exact reaches_leaf.mpr (by omega)
  | @above p b c node' hfork =>
    refine hfork.reaches hkey fun kid hkid => ?_
    obtain rfl := List.mem_singleton.mp hkid
    exact reaches_prependInto.mp hv
  | @diverge p rest b b' c node' hne hfork =>
    rw [List.length_append, List.length_cons] at hkey
    refine hfork.reaches (by omega) fun kid hkid => ?_
    obtain rfl | rfl := List.mem_pair.mp hkid
    · exact reaches_leaf.mpr (by omega)
    · exact reaches_prependInto.mp hv
  | endOld => exact hv
  | endNew => exact hv.setHasEnd true
  | @under node c c' b rest new hc h ih =>
    rw [List.length_append, List.length_cons] at hkey
    have hin := isInner_of_nodeChild hc
    obtain ⟨hpfx, hchild⟩ := (reaches_inner hin).mp hv
    have hc' := ih (hchild c (child_of_nodeChild hc)) (by omega)
    rw [reaches_inner (by rw [isInner_setChild, hin]), nodePrefix_setChild]
    refine ⟨hpfx, fun x hx => ?_⟩
    obtain rfl | hx := child_setChild hx
    · exact hc'
    · exact hchild x hx
  | @add node g node' b rest hin hnone hgrow hadd =>
    rw [List.length_append, List.length_cons] at hkey
    obtain ⟨hpfx, hchild⟩ := (reaches_inner hin).mp hv
    rw [reaches_inner (isInner_nodeAddChild (isInner_nodeMaybeGrow hin hgrow) hadd),
      nodePrefix_nodeAddChild hadd, nodePrefix_nodeMaybeGrow hgrow]
    refine ⟨hpfx, fun x hx => ?_⟩
    obtain rfl | hx := child_nodeAddChild hadd hx
    · exact reaches_leaf.mpr (by omega)
    · exact reaches_of_child hchild (child_nodeMaybeGrow hgrow hx)

/-- **A removal** reaches no deeper. -/
theorem Removes.reaches {gone : Bool} (h : Removes node key node' gone) (hv : Reaches L d node) :
    Reaches L d node' := by
  induction h generalizing d with
  | absent => exact hv
  | leaf => exact reaches_empty
  | @atEnd node node' hin hend hshrink =>
    exact (hv.setHasEnd false).nodeMaybeShrink (by rw [isInner_setHasEnd, hin]) hshrink
  | @under node c c' b rest hc h hleft ih =>
    have hin := isInner_of_nodeChild hc
    obtain ⟨hpfx, hchild⟩ := (reaches_inner hin).mp hv
    have hc' := ih (hchild c (child_of_nodeChild hc))
    rw [reaches_inner (by rw [isInner_setChild, hin]), nodePrefix_setChild]
    refine ⟨hpfx, fun x hx => ?_⟩
    obtain rfl | hx := child_setChild hx
    · exact hc'
    · exact hchild x hx
  -- What a merge puts in front of the child is what lay on the path to it.
  | @drop node c del node' b rest hc h hdel hshrink ih =>
    have hin := isInner_of_nodeChild hc
    obtain ⟨hpfx, hchild⟩ := (reaches_inner hin).mp hv
    have hin' := isInner_nodeDelChild (by rw [isInner_setChild, hin]) hdel
    refine Reaches.nodeMaybeShrink hin' ?_ hshrink
    rw [reaches_inner hin', nodePrefix_nodeDelChild hdel, nodePrefix_setChild]
    refine ⟨hpfx, fun x hx => ?_⟩
    obtain rfl | hx := child_nodeDelChild hdel hx
    · exact reaches_empty
    · obtain rfl | hx := child_setChild hx
      · exact reaches_empty
      · exact hchild x hx

section Bytes

/-- The bytes of a node in the format, where every field for a length or a count holds all of it. -/
inductive Writes : Node → Bytes → Prop
  | empty : Writes empty [tagEmpty]
  | leaf {sfx len : Bytes} (hwidth : len.length = 2) (hlen : ofBe len = sfx.length) :
      Writes (leaf sfx) (tagLeaf :: len ++ sfx)
  | n4 {pfx : Bytes} {he : Bool} {n : ℕ} {keys : Fin 4 → UInt8} {ch : Fin 4 → Node}
      {len count : UInt8} {front : Fin 4 → Bytes} (hlen : len.toNat = pfx.length)
      (hcount : count.toNat = n) (hfront : ∀ i, i.val < n → Writes (ch i) (front i)) :
      Writes (n4 pfx he n keys ch) (tagN4 :: (len :: pfx ++ [if he then 1 else 0]) ++
        count :: (((List.finRange 4).take n).map fun i => keys i :: front i).flatten)
  | n16 {pfx : Bytes} {he : Bool} {n : ℕ} {keys : Fin 16 → UInt8} {ch : Fin 16 → Node}
      {len count : UInt8} {front : Fin 16 → Bytes} (hlen : len.toNat = pfx.length)
      (hcount : count.toNat = n) (hfront : ∀ i, i.val < n → Writes (ch i) (front i)) :
      Writes (n16 pfx he n keys ch) (tagN16 :: (len :: pfx ++ [if he then 1 else 0]) ++
        count :: (((List.finRange 16).take n).map fun i => keys i :: front i).flatten)
  | n48 {pfx : Bytes} {he : Bool} {n : ℕ} {idx : UInt8 → UInt8} {ch : Fin 48 → Node}
      {len count : UInt8} {front : Fin 48 → Bytes} (hlen : len.toNat = pfx.length)
      (hcount : count.toNat = n) (hfront : ∀ s, s.val < n → Writes (ch s) (front s)) :
      Writes (n48 pfx he n idx ch) (tagN48 :: (len :: pfx ++ [if he then 1 else 0]) ++
        count :: (allBytes.map idx ++ (((List.finRange 48).take n).map front).flatten))
  | n256 {pfx : Bytes} {he : Bool} {n : ℕ} {ch : UInt8 → Node} {len : UInt8}
      {front : UInt8 → Bytes} (hlen : len.toNat = pfx.length) (hfront : ∀ b, Writes (ch b) (front b)) :
      Writes (n256 pfx he n ch) (tagN256 :: (len :: pfx ++ [if he then 1 else 0]) ++
        (allBytes.map front).flatten)

/-- The counter of a node does not go past its places. -/
def CountFits : Node → Prop
  | n4 _ _ n _ _ => n ≤ 4
  | n16 _ _ n _ _ => n ≤ 16
  | n48 _ _ n _ _ => n ≤ 48
  | _ => True

theorem serPfx_some {pfx front : Bytes} {he : Bool} (h : serPfx pfx he = some front) :
    ∃ len : UInt8, len.toNat = pfx.length ∧ front = len :: pfx ++ [if he then 1 else 0] := by
  unfold serPfx at h
  split at h
  · next hle =>
    exact ⟨_, UInt8.toNat_ofNat_of_lt' (show pfx.length < 256 by omega), (Option.some.inj h).symm⟩
  · cases h

/-- What a row of encodings is made of. -/
theorem mapM_some {ι : Type} {f : ι → Option Bytes} {l : List ι} {rows : List Bytes}
    (h : l.mapM f = some rows) :
    ∃ front : ι → Bytes, rows = l.map front ∧ ∀ i ∈ l, f i = some (front i) := by
  refine ⟨fun i => (f i).getD [], ?_⟩
  induction l generalizing rows with
  | nil =>
    obtain rfl := Option.some.inj h
    exact ⟨rfl, by simp⟩
  | cons i l ih =>
    rw [List.mapM_cons] at h
    obtain ⟨row, hrow, h⟩ := Option.bind_eq_some_iff.mp h
    obtain ⟨rows', hrows, h⟩ := Option.bind_eq_some_iff.mp h
    obtain rfl := Option.some.inj h
    obtain ⟨rfl, hall⟩ := ih hrows
    refine ⟨?_, List.forall_mem_cons.mpr ⟨?_, hall⟩⟩
    · rw [List.map_cons, hrow]
      rfl
    · dsimp only
      rw [hrow]
      rfl

theorem mem_take_finRange {cap n : ℕ} {i : Fin cap} (hi : i.val < n) :
    i ∈ (List.finRange cap).take n :=
  List.mem_take_iff_getElem.mpr ⟨i.val, by simp [hi], List.getElem_finRange _⟩

theorem serChildren_some {cap n : ℕ} {ser : Fin cap → Option Bytes} {below : Bytes}
    (h : serChildren n ser = some below) : n ≤ cap ∧ ∃ front : Fin cap → Bytes,
      below = (((List.finRange cap).take n).map front).flatten ∧
      ∀ i, i.val < n → ser i = some (front i) := by
  unfold serChildren at h
  split at h
  · next hn =>
    obtain ⟨rows, hrows, rfl⟩ := Option.map_eq_some_iff.mp h
    obtain ⟨front, rfl, hall⟩ := mapM_some hrows
    exact ⟨hn, front, rfl, fun i hi => hall i (mem_take_finRange hi)⟩
  · cases h

/-- Children with their key bytes in front. -/
theorem serKeyed_some {cap n : ℕ} {keys : Fin cap → UInt8} {ch : Fin cap → Node} {below : Bytes}
    (h : (serChildren n fun i => ((ch i).serNode).map (keys i :: ·)) = some below) :
    n ≤ cap ∧ ∃ front : Fin cap → Bytes,
      below = (((List.finRange cap).take n).map fun i => keys i :: front i).flatten ∧
      ∀ i, i.val < n → (ch i).serNode = some (front i) := by
  obtain ⟨hn, row, rfl, hall⟩ := serChildren_some h
  have hrow : ∀ i, i.val < n → ∃ front, (ch i).serNode = some front ∧ keys i :: front = row i :=
    fun i hi => Option.map_eq_some_iff.mp (hall i hi)
  refine ⟨hn, fun i => ((ch i).serNode).getD [], ?_, fun i hi => ?_⟩
  · refine congrArg List.flatten (List.map_congr_left fun i hi => ?_)
    obtain ⟨front, hfront, heq⟩ := hrow i (val_lt_of_mem_take hi)
    dsimp only
    rw [hfront, ← heq]
    rfl
  · obtain ⟨front, hfront, -⟩ := hrow i hi
    dsimp only
    rw [hfront]
    rfl

theorem isSome_serChildren {cap n : ℕ} {ser : Fin cap → Option Bytes} (hn : n ≤ cap)
    (h : ∀ i, i.val < n → (ser i).isSome = true) : (serChildren n ser).isSome = true := by
  rw [serChildren, if_pos hn, Option.isSome_map]
  exact isSome_mapM fun i hi => h i (val_lt_of_mem_take hi)

/-- **The encoder writes every length in full**: prefixes fit their byte by the assertion, and the
    suffixes of a tree that reaches no deeper than 255 fit their two bytes. -/
theorem writes_of_serNode {bytes : Bytes} (hreach : Reaches L d node) (hL : L ≤ 255)
    (h : node.serNode = some bytes) : node.Writes bytes := by
  induction node generalizing d bytes with
  | empty =>
    obtain rfl := Option.some.inj h
    exact .empty
  | leaf sfx =>
    have hle := reaches_leaf.mp hreach
    obtain rfl := Option.some.inj h
    exact .leaf (be_length 2 _) (ofBe_be (by omega))
  | n4 pfx he n keys ch ih =>
    obtain ⟨-, hchild⟩ := (reaches_inner rfl).mp hreach
    obtain ⟨head, hhead, h⟩ := Option.bind_eq_some_iff.mp h
    obtain ⟨below, hbelow, rfl⟩ := Option.map_eq_some_iff.mp h
    obtain ⟨len, hlen, rfl⟩ := serPfx_some hhead
    obtain ⟨hn, front, rfl, hall⟩ := serKeyed_some hbelow
    exact .n4 hlen (UInt8.toNat_ofNat_of_lt' (show n < 256 by omega)) fun i hi =>
      ih i (hchild _ ⟨i, hi, rfl⟩) (hall i hi)
  | n16 pfx he n keys ch ih =>
    obtain ⟨-, hchild⟩ := (reaches_inner rfl).mp hreach
    obtain ⟨head, hhead, h⟩ := Option.bind_eq_some_iff.mp h
    obtain ⟨below, hbelow, rfl⟩ := Option.map_eq_some_iff.mp h
    obtain ⟨len, hlen, rfl⟩ := serPfx_some hhead
    obtain ⟨hn, front, rfl, hall⟩ := serKeyed_some hbelow
    exact .n16 hlen (UInt8.toNat_ofNat_of_lt' (show n < 256 by omega)) fun i hi =>
      ih i (hchild _ ⟨i, hi, rfl⟩) (hall i hi)
  | n48 pfx he n idx ch ih =>
    obtain ⟨-, hchild⟩ := (reaches_inner rfl).mp hreach
    obtain ⟨head, hhead, h⟩ := Option.bind_eq_some_iff.mp h
    obtain ⟨below, hbelow, rfl⟩ := Option.map_eq_some_iff.mp h
    obtain ⟨len, hlen, rfl⟩ := serPfx_some hhead
    obtain ⟨hn, front, rfl, hall⟩ := serChildren_some hbelow
    exact .n48 hlen (UInt8.toNat_ofNat_of_lt' (show n < 256 by omega)) fun s hs =>
      ih s (hchild _ ⟨s, rfl⟩) (hall s hs)
  | n256 pfx he n ch ih =>
    obtain ⟨-, hchild⟩ := (reaches_inner rfl).mp hreach
    obtain ⟨head, hhead, h⟩ := Option.bind_eq_some_iff.mp h
    obtain ⟨below, hbelow, rfl⟩ := Option.map_eq_some_iff.mp h
    obtain ⟨len, hlen, rfl⟩ := serPfx_some hhead
    obtain ⟨front, rfl, hall⟩ := mapM_some hbelow
    exact .n256 hlen fun b => ih b (hchild _ ⟨b, rfl⟩) (hall b (mem_allBytes b))

theorem isSome_serInner {α : Type} {pfx : Bytes} {he : Bool} {below : Option α}
    {f : Bytes → α → Bytes} (hpfx : pfx.length ≤ 255) (hbelow : below.isSome = true) :
    ((serPfx pfx he).bind fun head => below.map (f head)).isSome = true := by
  rw [serPfx, if_pos hpfx, Option.bind_some, Option.isSome_map, hbelow]

/-- A tree whose counters stay inside their nodes and whose prefixes fit is written. -/
theorem isSome_serNode (hcount : ∀ e sub, Within node e sub → sub.CountFits)
    (hreach : Reaches L d node) (hL : L ≤ 255) : node.serNode.isSome = true := by
  induction node generalizing d with
  | empty => rfl
  | leaf sfx => rfl
  -- The bound on the prefix comes from the depth, that on the counter from the node.
  | n4 pfx he n keys ch ih =>
    obtain ⟨hle, hchild⟩ := (reaches_inner rfl).mp hreach
    have hpfx : pfx.length ≤ 255 := (Nat.le_add_left _ _).trans (hle.trans hL)
    refine isSome_serInner hpfx (isSome_serChildren (hcount 0 _ (.self _)) fun i hi => ?_)
    rw [Option.isSome_map]
    exact ih i (fun e sub hsub => hcount _ sub (.deeper ⟨i, hi, rfl⟩ hsub)) (hchild _ ⟨i, hi, rfl⟩)
  | n16 pfx he n keys ch ih =>
    obtain ⟨hle, hchild⟩ := (reaches_inner rfl).mp hreach
    have hpfx : pfx.length ≤ 255 := (Nat.le_add_left _ _).trans (hle.trans hL)
    refine isSome_serInner hpfx (isSome_serChildren (hcount 0 _ (.self _)) fun i hi => ?_)
    rw [Option.isSome_map]
    exact ih i (fun e sub hsub => hcount _ sub (.deeper ⟨i, hi, rfl⟩ hsub)) (hchild _ ⟨i, hi, rfl⟩)
  | n48 pfx he n idx ch ih =>
    obtain ⟨hle, hchild⟩ := (reaches_inner rfl).mp hreach
    have hpfx : pfx.length ≤ 255 := (Nat.le_add_left _ _).trans (hle.trans hL)
    refine isSome_serInner hpfx (isSome_serChildren (hcount 0 _ (.self _)) fun s _ => ?_)
    exact ih s (fun e sub hsub => hcount _ sub (.deeper ⟨s, rfl⟩ hsub)) (hchild _ ⟨s, rfl⟩)
  | n256 pfx he n ch ih =>
    obtain ⟨hle, hchild⟩ := (reaches_inner rfl).mp hreach
    have hpfx : pfx.length ≤ 255 := (Nat.le_add_left _ _).trans (hle.trans hL)
    refine isSome_serInner hpfx (isSome_mapM fun b _ => ?_)
    exact ih b (fun e sub hsub => hcount _ sub (.deeper ⟨b, rfl⟩ hsub)) (hchild _ ⟨b, rfl⟩)

/-- Everything inside an ordered tree is ordered. -/
theorem Ordered.within {sub : Node} (h : Ordered node) (hsub : Within node d sub) : Ordered sub := by
  induction hsub with
  | self => exact h
  | @deeper node c sub d hchild _ ih =>
    cases h with
    | empty => cases hchild
    | leaf sfx => cases hchild
    | inner hin htidy hbelow => exact ih (hbelow c hchild)

/-- Only 48-nodes can count past their places. -/
theorem Ordered.countFits (h : Ordered node)
    (hslots : ∀ pfx he n idx ch, node = n48 pfx he n idx ch → n ≤ 48) : node.CountFits := by
  cases h with
  | empty => trivial
  | leaf sfx => trivial
  | inner hin htidy _ =>
    cases node with
    | n4 pfx he n keys ch => exact htidy.1
    | n16 pfx he n keys ch => exact htidy.1
    | n48 pfx he n idx ch => exact hslots pfx he n idx ch rfl
    | _ => trivial

end Bytes

end Node

namespace IndexTree

variable {t : IndexTree} {L : ℕ}

/-- No inner node and no leaf of the tree ends deeper than `L`. -/
structure SizeSafe (L : ℕ) (t : IndexTree) : Prop where
  inner : ∀ d sub, t.root.Within d sub → sub.isInner = true → d + sub.nodePrefix.length ≤ L
  leaf : ∀ d sfx, t.root.Within d (.leaf sfx) → d + sfx.length ≤ L

/-- What the encoder does with the tree: the assertion on prefixes never fires, what is written has
    all its lengths in full, and the only panic that is left is the one of a 48-node whose counter
    has gone past its slots. -/
structure EncodesLengths (t : IndexTree) : Prop where
  assertion : ∀ d sub he, t.root.Within d sub → sub.isInner = true →
    (Node.serPfx sub.nodePrefix he).isSome = true
  written : ∀ bytes, t.toBytes = some bytes → ∃ count body, count.length = 4 ∧
    bytes = count ++ body ∧ t.root.Writes body
  panics : t.toBytes = none → ∃ d pfx he n idx ch, t.root.Within d (.n48 pfx he n idx ch) ∧ 48 < n

theorem sizeSafe_of_reaches (h : t.root.Reaches L 0) : SizeSafe L t := by
  constructor
  · intro d sub hsub hin
    have hle := h d sub hsub (Node.isEmpty_of_isInner hin)
    rw [Node.ownBytes_of_isInner hin] at hle
    omega
  · intro d sfx hsub
    have hle : 0 + d + sfx.length ≤ L := h d (.leaf sfx) hsub rfl
    omega

theorem encodesLengths_of_reaches (hv : t.root.Ordered) (h : t.root.Reaches L 0) (hL : L ≤ 255) :
    EncodesLengths t := by
  constructor
  · intro d sub he hsub hin
    have hle := (sizeSafe_of_reaches h).inner d sub hsub hin
    rw [Node.serPfx, if_pos (by omega)]
    rfl
  · intro bytes hbytes
    obtain ⟨body, hbody, rfl⟩ := Option.map_eq_some_iff.mp hbytes
    exact ⟨be 4 t.len, body, be_length 4 _, rfl, Node.writes_of_serNode h hL hbody⟩
  · intro hnone
    by_contra hslots
    have hsome := Node.isSome_serNode (fun d sub hsub => (hv.within hsub).countFits
      fun pfx he n idx ch heq => not_lt.mp fun hlt =>
        hslots ⟨d, pfx, he, n, idx, ch, heq ▸ hsub, hlt⟩) h hL
    rw [Option.map_eq_none_iff.mp hnone] at hsome
    cases hsome

theorem reaches_call {op : SetOp} {r : IndexTree × Bool} (hv : t.root.Ordered)
    (h : t.root.Reaches L 0) (hkey : ∀ key, op = .insert key → key.length ≤ L)
    (heq : op.onTree t = some r) : r.1.root.Reaches L 0 := by
  cases op with
  | insert key =>
    obtain ⟨⟨root, new⟩, hinsert, rfl⟩ := Option.map_eq_some_iff.mp heq
    have hle := hkey key rfl
    have hroot := (hv.inserts hinsert).reaches h (by omega)
    cases new <;> exact hroot
  | remove key =>
    obtain ⟨⟨root, gone⟩, hremove, rfl⟩ := Option.map_eq_some_iff.mp heq
    have hroot := (hv.removes hremove).reaches h
    cases gone <;> exact hroot

/-- **Run**: the depth of every tree that a run leaves is bounded by the keys that went in. -/
theorem reaches_run {ops : List SetOp} {answers : List Bool}
    (h : treeRun ops = some (t, answers)) (hkeys : ∀ key, .insert key ∈ ops → key.length ≤ L) :
    t.root.Reaches L 0 := by
  induction ops using List.reverseRecOn generalizing t answers with
  | nil =>
    obtain ⟨rfl, -⟩ := Prod.mk.inj (Option.some.inj h)
    exact Node.reaches_empty
  | append_singleton ops op ih =>
    rw [treeRun_snoc] at h
    obtain ⟨⟨u, before⟩, hu, hop⟩ := Option.bind_eq_some_iff.mp h
    obtain ⟨r, hr, hpair⟩ := Option.map_eq_some_iff.mp hop
    obtain ⟨rfl, -⟩ := Prod.mk.inj hpair
    have hbefore := ih hu fun key hkey => hkeys key (List.mem_append_left _ hkey)
    refine reaches_call (ordered_run hu) hbefore (fun key hkey => hkeys key ?_) hr
    rw [← hkey]
    exact List.mem_append_right _ (List.mem_singleton_self op)

end IndexTree

theorem value_length_of_convertAttributes {attrs : List AbiAttribute} {xs : List Attribute}
    (h : convertAttributes attrs = .ok xs) : ∀ x ∈ xs, x.value.length ≤ 128 := by
  induction attrs generalizing xs with
  | nil =>
    obtain rfl := Except.ok.inj h
    simp
  | cons a attrs ih =>
    simp only [convertAttributes, List.mapM_cons] at h
    obtain ⟨y, hy, h⟩ := Runs.ok_bind.mp h
    obtain ⟨ys, hys, h⟩ := Runs.ok_bind.mp h
    obtain rfl := Except.ok.inj h
    exact List.forall_mem_cons.mpr ⟨(convertAttribute_ok hy).2, ih hys⟩

theorem value_length_of_mem_userAnnotations {xs : List Attribute}
    (h : ∀ x ∈ xs, x.value.length ≤ 128) : ∀ a ∈ userAnnotations xs, a.value.length ≤ 128 := by
  intro a ha
  obtain ⟨x, hx, rfl⟩ := List.mem_map.mp ha
  exact h x hx

/-- Values of annotations are short: built-in ones by their type, the others as checked. -/
theorem EntityRlp.value_length_annotations {e : EntityRlp} (hct : e.contentType.length ≤ 128)
    (hattributes : ∀ x ∈ e.attributes, x.value.length ≤ 128) :
    ∀ a ∈ e.annotations, a.value.length ≤ 128 := by
  intro a ha
  obtain ha | ha := List.mem_append.mp ha
  · simp only [builtInAnnotations, List.mem_cons, List.not_mem_nil, or_false] at ha
    obtain rfl | rfl | rfl | rfl | rfl | rfl | rfl := ha <;> simp [hct]
  · exact value_length_of_mem_userAnnotations hattributes a ha

/-- **The write path stores short values**: what an operation posts comes from its converted
    attributes, the checked content type of its reference and fields of a fixed width. -/
theorem Posts.value_length [Host] {w : World} {c : OpCall} {a : Annotation} (h : Posts w c a) :
    a.value.length ≤ 128 := by
  cases h with
  | create htype hconv hauth ha =>
    obtain ⟨_, -, haccepted⟩ := acceptedReference_of_ok hauth
    exact EntityRlp.value_length_annotations haccepted.contentType_length
      (value_length_of_convertAttributes hconv) a ha
  | update htype hconv hauth ha =>
    obtain ⟨_, -, haccepted⟩ := acceptedReference_of_ok hauth
    obtain rfl | ha := List.mem_cons.mp ha
    · exact haccepted.contentType_length
    · exact value_length_of_mem_userAnnotations (value_length_of_convertAttributes hconv) a ha
  | extend => simp
  | transfer => simp
  | remove => simp

/-- **Size safety**: in every tree that insertions of keys up to a length `L` and removals leave,
    nodes end at depth `L` or above; up to 255, which the values that operations post stay below,
    the encoder's assertion holds and the bytes that it writes have all lengths in full. -/
theorem sizeSafe_run {ops : List SetOp} {t : IndexTree} {answers : List Bool} {L : ℕ}
    (h : treeRun ops = some (t, answers)) (hkeys : ∀ key, .insert key ∈ ops → key.length ≤ L) :
    t.SizeSafe L ∧ (L ≤ 255 → t.EncodesLengths) ∧
      ∀ [Host] (w : World) (c : OpCall) a, Posts w c a → a.value.length ≤ 128 := by
  have hreach := IndexTree.reaches_run h hkeys
  exact ⟨IndexTree.sizeSafe_of_reaches hreach,
    IndexTree.encodesLengths_of_reaches (IndexTree.ordered_run h) hreach,
    fun _ _ _ ha => ha.value_length⟩

/-- The merged node carries the prefix of the node above it, the branch byte and its own prefix. -/
theorem sizeSafe_run_mergeOps : ∃ t answers, treeRun mergeOps = some (t, answers) ∧
    t.root.isInner = true ∧ t.root.nodePrefix = [1, 2] ∧ t.SizeSafe 3 ∧ t.EncodesLengths := by
  obtain ⟨t, answers, hrun, hin, hpfx⟩ := exists_mergeRun
  have hsafe := sizeSafe_run (L := 3) hrun fun key hkey => by
    simp only [mergeOps, List.mem_cons, SetOp.insert.injEq, reduceCtorEq, List.not_mem_nil,
      or_false] at hkey
    obtain rfl | rfl | rfl := hkey <;> decide
  exact ⟨t, answers, hrun, hin, hpfx, hsafe.1, hsafe.2.1 (by decide)⟩

end Arkiv
