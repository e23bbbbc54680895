import Mathlib
import Arkiv.IndexTree.Codec
import Arkiv.IndexTree.Refinement
import Arkiv.Lib.Related

/-!
# Trees that cannot be told apart

The key and child entries of a small node from its counter on are leftovers of
deletions. Trees that differ in them only enumerate and encode alike and answer
every run of calls alike, panics included.

## Main definitions

- `Node.Same` — equal but for leftovers
- `Node.Same.insertNode`, `Node.Same.removeNode` — calls on such trees
- `IndexTree.answers` — what a tree answers to calls
- `IndexTree.Same.answers` — trees that cannot be told apart answer alike
-/

namespace Arkiv

open ByteString

namespace Node

/-- Trees that differ in leftover entries only. -/
inductive Same : Node → Node → Prop
  | empty : Same empty empty
  | leaf (sfx : Bytes) : Same (leaf sfx) (leaf sfx)
  | n4 {pfx : Bytes} {he : Bool} {n : ℕ} {keys keys' : Fin 4 → UInt8} {ch ch' : Fin 4 → Node}
      (hkeys : ∀ i, i.val < n → keys i = keys' i) (hch : ∀ i, i.val < n → Same (ch i) (ch' i)) :
      Same (n4 pfx he n keys ch) (n4 pfx he n keys' ch')
  | n16 {pfx : Bytes} {he : Bool} {n : ℕ} {keys keys' : Fin 16 → UInt8} {ch ch' : Fin 16 → Node}
      (hkeys : ∀ i, i.val < n → keys i = keys' i) (hch : ∀ i, i.val < n → Same (ch i) (ch' i)) :
      Same (n16 pfx he n keys ch) (n16 pfx he n keys' ch')
  | n48 {pfx : Bytes} {he : Bool} {n : ℕ} {idx : UInt8 → UInt8} {ch ch' : Fin 48 → Node}
      (hch : ∀ s, Same (ch s) (ch' s)) : Same (n48 pfx he n idx ch) (n48 pfx he n idx ch')
  | n256 {pfx : Bytes} {he : Bool} {n : ℕ} {ch ch' : UInt8 → Node}
      (hch : ∀ b, Same (ch b) (ch' b)) : Same (n256 pfx he n ch) (n256 pfx he n ch')

/-- Results of calls that cannot be told apart. -/
def SameResult : Option (Node × Bool) → Option (Node × Bool) → Prop :=
  Option.Rel fun r r' => Same r.1 r'.1 ∧ r.2 = r'.2

variable {x y c c' : Node} {b : UInt8} {key : Bytes} {n : ℕ}

theorem Same.refl (x : Node) : Same x x := by
  induction x with
  | empty => exact .empty
  | leaf sfx => exact .leaf sfx
  | n4 pfx he n keys ch ih => exact .n4 (fun _ _ => rfl) fun i _ => ih i
  | n16 pfx he n keys ch ih => exact .n16 (fun _ _ => rfl) fun i _ => ih i
  | n48 pfx he n idx ch ih => exact .n48 ih
  | n256 pfx he n ch ih => exact .n256 ih

section Fields

theorem Same.isEmpty (h : Same x y) : x.isEmpty = y.isEmpty := by
  cases h <;> rfl

theorem Same.nodePrefix (h : Same x y) : x.nodePrefix = y.nodePrefix := by
  cases h <;> rfl

theorem Same.nodeHasEnd (h : Same x y) : x.nodeHasEnd = y.nodeHasEnd := by
  cases h <;> rfl

theorem Same.nodeNChildren (h : Same x y) : x.nodeNChildren = y.nodeNChildren := by
  cases h <;> rfl

theorem Same.setPrefix (h : Same x y) (pfx : Bytes) : Same (x.setPrefix pfx) (y.setPrefix pfx) := by
  cases h with
  | empty => exact .empty
  | leaf sfx => exact .leaf sfx
  | n4 hkeys hch => exact .n4 hkeys hch
  | n16 hkeys hch => exact .n16 hkeys hch
  | n48 hch => exact .n48 hch
  | n256 hch => exact .n256 hch

theorem Same.setHasEnd (h : Same x y) (he : Bool) : Same (x.setHasEnd he) (y.setHasEnd he) := by
  cases h with
  | empty => exact .empty
  | leaf sfx => exact .leaf sfx
  | n4 hkeys hch => exact .n4 hkeys hch
  | n16 hkeys hch => exact .n16 hkeys hch
  | n48 hch => exact .n48 hch
  | n256 hch => exact .n256 hch

theorem Same.prependInto (h : Same x y) (p : Bytes) (b : UInt8) :
    Same (prependInto p b x) (prependInto p b y) := by
  cases h with
  | empty => exact .empty
  | leaf sfx => exact .leaf _
  | n4 hkeys hch => exact .n4 hkeys hch
  | n16 hkeys hch => exact .n16 hkeys hch
  | n48 hch => exact .n48 hch
  | n256 hch => exact .n256 hch

end Fields

section Arrays

variable {cap : ℕ} {keys keys' : Fin cap → UInt8}

theorem filter_keys_congr (h : ∀ i, i.val < n → keys i = keys' i) (b : UInt8) :
    (fun i : Fin cap => i.val < n && keys i == b) = fun i => i.val < n && keys' i == b := by
  funext i
  by_cases hi : i.val < n
  · rw [h i hi]
  · simp [hi]

theorem findKey_congr (h : ∀ i, i.val < n → keys i = keys' i) (b : UInt8) :
    findKey n keys b = findKey n keys' b := by
  unfold findKey
  rw [filter_keys_congr h]

theorem insertPos_congr (h : ∀ i, i.val < n → keys i = keys' i) (b : UInt8) :
    insertPos n keys b = insertPos n keys' b := by
  unfold insertPos
  congr 2
  funext i
  by_cases hi : i.val < n
  · rw [h i hi]
  · simp [hi]

theorem lt_of_findKey {i : Fin cap} (h : findKey n keys b = some i) : i.val < n := by
  have hfound := List.find?_some h
  simp only [Bool.and_eq_true, decide_eq_true_eq] at hfound
  exact hfound.1

variable {α : Type} {R : α → α → Prop} {f g : Fin cap → α} {pos : ℕ} {a a' : α}

theorem shiftIn_rel (h : ∀ i, i.val < n → R (f i) (g i)) (hpos : pos ≤ n) (ha : R a a')
    (i : Fin cap) (hi : i.val < n + 1) : R (shiftIn pos n a f i) (shiftIn pos n a' g i) := by
  rcases lt_trichotomy i.val pos with hlt | heq | hgt
  · rw [shiftIn_of_lt hlt, shiftIn_of_lt hlt]
    exact h i (by omega)
  · rw [shiftIn_of_eq heq, shiftIn_of_eq heq]
    exact ha
  · rw [shiftIn_of_gt hgt (by omega), shiftIn_of_gt hgt (by omega)]
    exact h _ (show i.val - 1 < n by omega)

theorem shiftOut_rel (h : ∀ i, i.val < n → R (f i) (g i)) (i : Fin cap) (hi : i.val < n) :
    R (shiftOut pos n f i) (shiftOut pos n g i) := by
  unfold shiftOut
  split
  · next hmove => exact h _ hmove.2.1
  · exact h i hi

theorem update_rel {ι : Type} [DecidableEq ι] {p : ι → Prop} {f g : ι → α}
    (h : ∀ i, p i → R (f i) (g i)) (ha : R a a') (j i : ι) (hi : p i) :
    R (Function.update f j a i) (Function.update g j a' i) := by
  by_cases hij : i = j
  · rw [hij, Function.update_self, Function.update_self]
    exact ha
  · rw [Function.update_of_ne hij, Function.update_of_ne hij]
    exact h i hi

end Arrays

section Slots

variable {ch ch' : UInt8 → Node}

theorem fullBytes_congr (h : ∀ b, Same (ch b) (ch' b)) : fullBytes ch = fullBytes ch' := by
  unfold fullBytes
  congr 1
  funext b
  rw [(h b).isEmpty]

theorem firstFree_congr {ch ch' : Fin 48 → Node} (h : ∀ s, Same (ch s) (ch' s)) :
    (List.finRange 48).find? (fun s => (ch s).isEmpty) =
      (List.finRange 48).find? fun s => (ch' s).isEmpty := by
  congr 1
  funext s
  exact (h s).isEmpty

/-- A child that is looked up in one of two arrays, or nothing. -/
theorem Same.elim {ι : Type} {f g : ι → Node} (h : ∀ i, Same (f i) (g i)) (o : Option ι) :
    Same (o.elim Node.empty f) (o.elim Node.empty g) := by
  cases o with
  | none => exact .empty
  | some i => exact h i

end Slots

section Operations

theorem Same.nodeChildIsEmpty (h : Same x y) (b : UInt8) :
    x.nodeChildIsEmpty b = y.nodeChildIsEmpty b := by
  unfold Node.nodeChildIsEmpty
  cases h with
  | empty => rfl
  | leaf sfx => rfl
  | @n4 pfx he n keys keys' ch ch' hkeys hch =>
    simp only [nodeChild]
    rw [findKey_congr hkeys]
    cases hfind : findKey n keys' b with
    | none => rfl
    | some i => exact (hch i (lt_of_findKey hfind)).isEmpty
  | @n16 pfx he n keys keys' ch ch' hkeys hch =>
    simp only [nodeChild]
    rw [findKey_congr hkeys]
    cases hfind : findKey n keys' b with
    | none => rfl
    | some i => exact (hch i (lt_of_findKey hfind)).isEmpty
  | n48 hch =>
    simp only [nodeChild]
    split
    · exact (hch _).isEmpty
    · rfl
  | n256 hch =>
    simp only [nodeChild]
    rw [(hch b).isEmpty]
    split
    · rfl
    · exact (hch b).isEmpty

theorem Same.nodeAddChild (h : Same x y) (hc : Same c c') (b : UInt8) :
    Option.Rel Same (x.nodeAddChild b c) (y.nodeAddChild b c') := by
  cases h with
  | empty => exact .some .empty
  | leaf sfx => exact .some (.leaf sfx)
  | n4 hkeys hch =>
    simp only [Node.nodeAddChild]
    rw [insertPos_congr hkeys]
    refine Related.ite (.some (.n4 ?_ ?_)) .none
    · exact shiftIn_rel hkeys insertPos_le rfl
    · exact shiftIn_rel hch insertPos_le hc
  | n16 hkeys hch =>
    simp only [Node.nodeAddChild]
    rw [insertPos_congr hkeys]
    refine Related.ite (.some (.n16 ?_ ?_)) .none
    · exact shiftIn_rel hkeys insertPos_le rfl
    · exact shiftIn_rel hch insertPos_le hc
  | n48 hch =>
    simp only [Node.nodeAddChild]
    rw [firstFree_congr hch]
    refine Related.map (Related.refl (R := Eq) (fun _ => rfl) _) ?_
    rintro s _ rfl
    exact .n48 fun t => update_rel (p := fun _ => True) (fun t _ => hch t) hc s t trivial
  | n256 hch =>
    exact .some (.n256 fun b' =>
      update_rel (p := fun _ => True) (fun b' _ => hch b') hc b b' trivial)

theorem Same.nodeDelChild (h : Same x y) (b : UInt8) :
    Option.Rel Same (x.nodeDelChild b) (y.nodeDelChild b) := by
  cases h with
  | empty => exact .some .empty
  | leaf sfx => exact .some (.leaf sfx)
  | @n4 pfx he n keys keys' ch ch' hkeys hch =>
    simp only [Node.nodeDelChild]
    rw [findKey_congr hkeys]
    cases findKey n keys' b with
    | none => exact .some (.n4 hkeys hch)
    | some p =>
      refine .some (.n4 (fun i hi => shiftOut_rel hkeys i (by omega)) fun i hi => ?_)
      by_cases hlast : i.val + 1 = n
      · rw [if_pos hlast, if_pos hlast]
        exact .empty
      · rw [if_neg hlast, if_neg hlast]
        exact shiftOut_rel hch i (by omega)
  | @n16 pfx he n keys keys' ch ch' hkeys hch =>
    simp only [Node.nodeDelChild]
    rw [findKey_congr hkeys]
    cases findKey n keys' b with
    | none => exact .some (.n16 hkeys hch)
    | some p =>
      refine .some (.n16 (fun i hi => shiftOut_rel hkeys i (by omega)) fun i hi => ?_)
      by_cases hlast : i.val + 1 = n
      · rw [if_pos hlast, if_pos hlast]
        exact .empty
      · rw [if_neg hlast, if_neg hlast]
        exact shiftOut_rel hch i (by omega)
  | n48 hch =>
    simp only [Node.nodeDelChild]
    refine Related.ite (.some (.n48 hch)) ?_
    split
    · exact .some (.n48 fun t =>
        update_rel (p := fun _ => True) (fun t _ => hch t) .empty _ t trivial)
    · exact .none
  | n256 hch =>
    simp only [Node.nodeDelChild]
    rw [(hch b).isEmpty]
    exact Related.ite (.some (.n256 hch)) (.some (.n256 fun b' =>
      update_rel (p := fun _ => True) (fun b' _ => hch b') .empty b b' trivial))

theorem Same.n48ToN256 {pfx : Bytes} {he : Bool} {idx : UInt8 → UInt8} {ch ch' : Fin 48 → Node}
    (hch : ∀ s, Same (ch s) (ch' s)) :
    Option.Rel Same (n48ToN256 pfx he n idx ch) (n48ToN256 pfx he n idx ch') := by
  unfold Node.n48ToN256
  refine Related.ite (.some (.n256 fun b => ?_)) .none
  cases (List.finRange 48).find? fun s => slotByte idx s != n48Nil && slotByte idx s == b with
  | none => exact .empty
  | some s => exact hch s

theorem Same.n48ToN16 {pfx : Bytes} {he : Bool} {idx : UInt8 → UInt8} {ch ch' : Fin 48 → Node}
    (hch : ∀ s, Same (ch s) (ch' s)) :
    Option.Rel Same (n48ToN16 pfx he n idx ch) (n48ToN16 pfx he n idx ch') := by
  unfold Node.n48ToN16
  dsimp only
  refine Related.ite (.some (.n16 (fun _ _ => rfl) fun i _ => ?_)) .none
  cases (usedBytes idx)[i.val]? with
  | none => exact .empty
  | some b =>
    dsimp only
    split
    · exact .empty
    · split
      · exact hch _
      · exact .empty

theorem Same.n256ToN48 {pfx : Bytes} {he : Bool} {ch ch' : UInt8 → Node}
    (hch : ∀ b, Same (ch b) (ch' b)) :
    Option.Rel Same (n256ToN48 pfx he n ch) (n256ToN48 pfx he n ch') := by
  unfold Node.n256ToN48
  rw [fullBytes_congr hch]
  exact Related.ite (.some (.n48 fun s => Same.elim hch _)) .none

/-- **Growing** looks at nothing behind the counter. -/
theorem Same.nodeMaybeGrow (h : Same x y) :
    Option.Rel Same x.nodeMaybeGrow y.nodeMaybeGrow := by
  cases h with
  | empty => exact .some .empty
  | leaf sfx => exact .some (.leaf sfx)
  | @n4 pfx he n keys keys' ch ch' hkeys hch =>
    simp only [Node.nodeMaybeGrow]
    by_cases hn : n = 4
    · rw [if_pos hn, if_pos hn]
      refine .some (.n16 (fun i hi => ?_) fun i hi => ?_)
      · have hlt : i.val < n ∧ i.val < 4 := ⟨hi, by omega⟩
        rw [dif_pos hlt, dif_pos hlt]
        exact hkeys _ hi
      · rw [dif_pos (by omega), dif_pos (by omega)]
        exact hch _ hi
    · rw [if_neg hn, if_neg hn]
      exact .some (.n4 hkeys hch)
  | @n16 pfx he n keys keys' ch ch' hkeys hch =>
    simp only [Node.nodeMaybeGrow]
    refine Related.ite (.some ?_) (.some (.n16 hkeys hch))
    unfold n16ToN48
    simp only [filter_keys_congr hkeys]
    refine .n48 fun s => ?_
    split
    · next hlt => exact hch _ hlt.1
    · exact .empty
  | n48 hch =>
    simp only [Node.nodeMaybeGrow]
    exact Related.ite (Same.n48ToN256 hch) (.some (.n48 hch))
  | n256 hch => exact .some (.n256 hch)

/-- **Shrinking** looks at nothing behind the counter. -/
theorem Same.nodeMaybeShrink (h : Same x y) :
    Option.Rel Same x.nodeMaybeShrink y.nodeMaybeShrink := by
  unfold Node.nodeMaybeShrink
  rw [h.nodeNChildren, h.nodeHasEnd]
  refine Related.ite (.some .empty) ?_
  cases h with
  | empty => exact .some .empty
  | leaf sfx => exact .some (.leaf sfx)
  | @n4 pfx he n keys keys' ch ch' hkeys hch =>
    dsimp only
    by_cases hmerge : n = 1 ∧ he = false
    · rw [if_pos hmerge, if_pos hmerge, hkeys 0 (by simp [hmerge.1])]
      exact .some ((hch 0 (by simp [hmerge.1])).prependInto _ _)
    · rw [if_neg hmerge, if_neg hmerge]
      exact .some (.n4 hkeys hch)
  | @n16 pfx he n keys keys' ch ch' hkeys hch =>
    refine Related.ite (.some (.n4 (fun i hi => ?_) fun i hi => ?_)) (.some (.n16 hkeys hch))
    · rw [if_pos hi, if_pos hi]
      exact hkeys _ hi
    · rw [if_pos hi, if_pos hi]
      exact hch _ hi
  | n48 hch => exact Related.ite (Same.n48ToN16 hch) (.some (.n48 hch))
  | n256 hch => exact Related.ite (Same.n256ToN48 hch) (.some (.n256 hch))

end Operations

section Calls

/-- What a call into the child under a byte gives, or that there is no child. -/
def SameChild : Option (Option (Node × Bool)) → Option (Option (Node × Bool)) → Prop :=
  Option.Rel SameResult

theorem Same.answer (h : Same x y) {new : Bool} : SameResult (some (x, new)) (some (y, new)) :=
  .some ⟨h, rfl⟩

theorem SameResult.ofNode {o o' : Option Node} (h : Option.Rel Same o o') {new : Bool} :
    SameResult (o.map (·, new)) (o'.map (·, new)) :=
  Related.map h fun _ _ hc => ⟨hc, rfl⟩

theorem Same.splitPrefix (h : Same x y) (matched : ℕ) (key : Bytes) :
    SameResult (splitPrefix x matched key) (splitPrefix y matched key) := by
  unfold Node.splitPrefix
  rw [h.nodePrefix]
  cases y.nodePrefix.drop matched with
  | nil => exact .none
  | cons b rest =>
    refine Related.bind ((Same.refl _).nodeAddChild (h.setPrefix rest) b) fun node node' hnode => ?_
    cases key.drop matched with
    | nil => exact (hnode.setHasEnd true).answer
    | cons c rest' => exact SameResult.ofNode (hnode.nodeAddChild (.leaf _) c)

theorem Same.insertInner (h : Same x y) {key : Bytes}
    {recurse recurse' : UInt8 → Bytes → Option (Option (Node × Bool))}
    (hrec : ∀ b rest, SameChild (recurse b rest) (recurse' b rest)) :
    SameResult (insertInner x key recurse) (insertInner y key recurse') := by
  unfold Node.insertInner
  rw [h.nodePrefix, h.nodeHasEnd]
  refine Related.ite (h.splitPrefix _ key) ?_
  cases key.drop y.nodePrefix.length with
  | nil => exact Related.ite h.answer (h.setHasEnd true).answer
  | cons b rest =>
    have hchild := hrec b rest
    dsimp only
    generalize recurse b rest = o at hchild
    generalize recurse' b rest = o' at hchild
    cases hchild with
    | some hresult => exact hresult
    | none =>
      refine Related.bind h.nodeMaybeGrow fun node node' hnode => ?_
      exact SameResult.ofNode (hnode.nodeAddChild (.leaf rest) b)

/-- **Inserting** into trees that cannot be told apart. -/
theorem Same.insertNode (h : Same x y) (key : Bytes) :
    SameResult (x.insertNode key) (y.insertNode key) := by
  induction h generalizing key with
  | empty => exact (Same.leaf key).answer
  | leaf sfx => exact Related.refl (fun r => ⟨Same.refl r.1, rfl⟩) _
  | @n4 pfx he n keys keys' ch ch' hkeys hch ih =>
    unfold Node.insertNode
    refine Same.insertInner (.n4 hkeys hch) fun b rest => ?_
    rw [findKey_congr hkeys]
    cases hfind : findKey n keys' b with
    | none => exact .none
    | some i =>
      refine .some (Related.map (ih i (lt_of_findKey hfind) rest) fun r r' hr => ⟨?_, hr.2⟩)
      exact .n4 hkeys (update_rel hch hr.1 i)
  | @n16 pfx he n keys keys' ch ch' hkeys hch ih =>
    unfold Node.insertNode
    refine Same.insertInner (.n16 hkeys hch) fun b rest => ?_
    rw [findKey_congr hkeys]
    cases hfind : findKey n keys' b with
    | none => exact .none
    | some i =>
      refine .some (Related.map (ih i (lt_of_findKey hfind) rest) fun r r' hr => ⟨?_, hr.2⟩)
      exact .n16 hkeys (update_rel hch hr.1 i)
  -- The index arrays are equal, so both sides go to the same slot or panic together.
  | n48 hch ih =>
    unfold Node.insertNode
    refine Same.insertInner (.n48 hch) fun b rest => Related.ite .none ?_
    split
    · refine .some (Related.map (ih _ rest) fun r r' hr => ⟨?_, hr.2⟩)
      exact .n48 fun t => update_rel (p := fun _ => True) (fun t _ => hch t) hr.1 _ t trivial
    · exact .some .none
  | @n256 pfx he n ch ch' hch ih =>
    unfold Node.insertNode
    refine Same.insertInner (.n256 hch) fun b rest => ?_
    rw [(hch b).isEmpty]
    refine Related.ite .none (.some (Related.map (ih b rest) fun r r' hr => ⟨?_, hr.2⟩))
    exact .n256 fun b' => update_rel (p := fun _ => True) (fun b' _ => hch b') hr.1 b b' trivial

theorem Same.removeInner (h : Same x y) {key : Bytes}
    {recurse recurse' : UInt8 → Bytes → Option (Option (Node × Bool))}
    (hrec : ∀ b rest, SameChild (recurse b rest) (recurse' b rest)) :
    SameResult (removeInner x key recurse) (removeInner y key recurse') := by
  unfold Node.removeInner
  rw [h.nodePrefix, h.nodeHasEnd]
  refine Related.ite h.answer ?_
  cases key.drop y.nodePrefix.length with
  | nil => exact Related.ite (SameResult.ofNode (h.setHasEnd false).nodeMaybeShrink) h.answer
  | cons b rest =>
    have hchild := hrec b rest
    dsimp only
    generalize recurse b rest = o at hchild
    generalize recurse' b rest = o' at hchild
    cases hchild with
    | none => exact h.answer
    | some hresult =>
      cases hresult with
      | none => exact .none
      | @some r r' hr =>
        obtain ⟨node, removed⟩ := r
        obtain ⟨node', removed'⟩ := r'
        obtain ⟨hnode, rfl⟩ := hr
        dsimp only at hnode ⊢
        rw [hnode.nodeChildIsEmpty]
        refine Related.ite (Related.bind (hnode.nodeDelChild b) fun del del' hdel => ?_)
          hnode.answer
        exact SameResult.ofNode hdel.nodeMaybeShrink

/-- **Removing** from trees that cannot be told apart. -/
theorem Same.removeNode (h : Same x y) (key : Bytes) :
    SameResult (x.removeNode key) (y.removeNode key) := by
  induction h generalizing key with
  | empty => exact Same.empty.answer
  | leaf sfx => exact Related.refl (fun r => ⟨Same.refl r.1, rfl⟩) _
  | @n4 pfx he n keys keys' ch ch' hkeys hch ih =>
    unfold Node.removeNode
    refine Same.removeInner (.n4 hkeys hch) fun b rest => ?_
    rw [findKey_congr hkeys]
    cases hfind : findKey n keys' b with
    | none => exact .none
    | some i =>
      refine .some (Related.map (ih i (lt_of_findKey hfind) rest) fun r r' hr => ⟨?_, hr.2⟩)
      exact .n4 hkeys (update_rel hch hr.1 i)
  | @n16 pfx he n keys keys' ch ch' hkeys hch ih =>
    unfold Node.removeNode
    refine Same.removeInner (.n16 hkeys hch) fun b rest => ?_
    rw [findKey_congr hkeys]
    cases hfind : findKey n keys' b with
    | none => exact .none
    | some i =>
      refine .some (Related.map (ih i (lt_of_findKey hfind) rest) fun r r' hr => ⟨?_, hr.2⟩)
      exact .n16 hkeys (update_rel hch hr.1 i)
  | n48 hch ih =>
    unfold Node.removeNode
    refine Same.removeInner (.n48 hch) fun b rest => Related.ite .none ?_
    split
    · refine .some (Related.map (ih _ rest) fun r r' hr => ⟨?_, hr.2⟩)
      exact .n48 fun t => update_rel (p := fun _ => True) (fun t _ => hch t) hr.1 _ t trivial
    · exact .some .none
  | @n256 pfx he n ch ch' hch ih =>
    unfold Node.removeNode
    refine Same.removeInner (.n256 hch) fun b rest => ?_
    rw [(hch b).isEmpty]
    refine Related.ite .none (.some (Related.map (ih b rest) fun r r' hr => ⟨?_, hr.2⟩))
    exact .n256 fun b' => update_rel (p := fun _ => True) (fun b' _ => hch b') hr.1 b b' trivial

end Calls

section Reads

theorem mapM_congr {α β : Type} {f g : α → Option β} {l : List α} (h : ∀ a ∈ l, f a = g a) :
    l.mapM f = l.mapM g := by
  induction l with
  | nil => rfl
  | cons a l ih =>
    rw [List.mapM_cons, List.mapM_cons, h a List.mem_cons_self,
      ih fun x hx => h x (List.mem_cons_of_mem a hx)]

theorem val_lt_of_mem_take {cap : ℕ} {i : Fin cap} (h : i ∈ (List.finRange cap).take n) :
    i.val < n := by
  obtain ⟨j, hj, rfl⟩ := List.mem_take_iff_getElem.mp h
  rw [List.getElem_finRange]
  exact lt_of_lt_of_le hj (min_le_left _ _)

theorem serChildren_congr {cap : ℕ} {ser ser' : Fin cap → Option Bytes}
    (h : ∀ i, i.val < n → ser i = ser' i) : serChildren n ser = serChildren n ser' := by
  unfold serChildren
  rw [mapM_congr fun i hi => h i (val_lt_of_mem_take hi)]

/-- **The encoding** does not show leftovers. -/
theorem Same.serNode (h : Same x y) : x.serNode = y.serNode := by
  induction h with
  | empty => rfl
  | leaf sfx => rfl
  | @n4 pfx he n keys keys' ch ch' hkeys hch ih =>
    unfold Node.serNode
    have hkids : serChildren n (fun i => ((ch i).serNode).map (keys i :: ·)) =
        serChildren n fun i => ((ch' i).serNode).map (keys' i :: ·) :=
      serChildren_congr fun i hi => by rw [hkeys i hi, ih i hi]
    rw [hkids]
  | @n16 pfx he n keys keys' ch ch' hkeys hch ih =>
    unfold Node.serNode
    have hkids : serChildren n (fun i => ((ch i).serNode).map (keys i :: ·)) =
        serChildren n fun i => ((ch' i).serNode).map (keys' i :: ·) :=
      serChildren_congr fun i hi => by rw [hkeys i hi, ih i hi]
    rw [hkids]
  | n48 hch ih =>
    unfold Node.serNode
    rw [funext ih]
  | n256 hch ih =>
    unfold Node.serNode
    rw [funext ih]

/-- **The enumeration** does not show leftovers. -/
theorem Same.collectAll (h : Same x y) (path : Bytes) : x.collectAll path = y.collectAll path := by
  induction h generalizing path with
  | empty => rfl
  | leaf sfx => rfl
  | n4 hkeys hch ih =>
    unfold Node.collectAll
    congr 1
    apply mapM_congr
    intro i hi
    have hlt := of_decide_eq_true (List.mem_filter.mp hi).2
    rw [hkeys i hlt, ih i hlt]
  | n16 hkeys hch ih =>
    unfold Node.collectAll
    congr 1
    apply mapM_congr
    intro i hi
    have hlt := of_decide_eq_true (List.mem_filter.mp hi).2
    rw [hkeys i hlt, ih i hlt]
  | n48 hch ih =>
    unfold Node.collectAll
    simp only [ih]
  | n256 hch ih =>
    unfold Node.collectAll
    simp only [ih]

end Reads

end Node

namespace IndexTree

/-- Trees that differ in leftover entries of nodes only. -/
structure Same (t u : IndexTree) : Prop where
  root : t.root.Same u.root
  len : t.len = u.len

variable {t u : IndexTree}

theorem Same.keys (h : Same t u) : t.keys = u.keys := h.root.collectAll []

theorem Same.toBytes (h : Same t u) : t.toBytes = u.toBytes := by
  unfold IndexTree.toBytes
  rw [h.root.serNode, h.len]

theorem Same.onTree (h : Same t u) (op : SetOp) :
    Option.Rel (fun x y => Same x.1 y.1 ∧ x.2 = y.2) (op.onTree t) (op.onTree u) := by
  cases op with
  | insert key =>
    refine Related.map (h.root.insertNode key) fun r r' hr => ?_
    obtain ⟨root, new⟩ := r
    obtain ⟨root', new'⟩ := r'
    obtain ⟨hroot, rfl⟩ := hr
    dsimp only
    rw [h.len]
    cases new <;> exact ⟨⟨hroot, rfl⟩, rfl⟩
  | remove key =>
    refine Related.map (h.root.removeNode key) fun r r' hr => ?_
    obtain ⟨root, gone⟩ := r
    obtain ⟨root', gone'⟩ := r'
    obtain ⟨hroot, rfl⟩ := hr
    dsimp only
    rw [h.len]
    cases gone <;> exact ⟨⟨hroot, rfl⟩, rfl⟩

/-- What a tree answers to calls, where none panics. -/
def answers (t : IndexTree) (ops : List SetOp) : Option (List Bool) :=
  Related.answers (fun t op => op.onTree t) t ops

/-- **Same answers** to every run of calls. -/
theorem Same.answers (h : Same t u) (ops : List SetOp) : t.answers ops = u.answers ops :=
  Related.answers_eq (R := Same) (fun _ _ op h => h.onTree op) h ops

end IndexTree

end Arkiv
