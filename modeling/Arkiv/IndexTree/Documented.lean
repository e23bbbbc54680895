import Mathlib
import Arkiv.IndexTree.Kept
import Arkiv.IndexTree.Size

/-!
# The documented layout

The module's table of node types, with counters, keys and slots in step, along
every run that neither grows a full 48-node with a child under `0xFF`, nor takes
a child out of a 256-node, nor takes the last child of a node with a key of its
own.

## Main definitions

- `Node.Documented`, `IndexTree.Documented` — the layout of one inner node, and of a tree
- `SetOp.KeepsLayout` — the calls that keep it
- `documented_run` — the layout after every run of such calls
-/

namespace Arkiv

open ByteString

namespace Node

/-- The child slots that are not empty. -/
def nFull : Node → ℕ
  | n4 _ _ _ _ ch => (Finset.univ.filter fun i => (ch i).isEmpty = false).card
  | n16 _ _ _ _ ch => (Finset.univ.filter fun i => (ch i).isEmpty = false).card
  | n48 _ _ _ _ ch => (Finset.univ.filter fun s => (ch s).isEmpty = false).card
  | n256 _ _ _ ch => (Finset.univ.filter fun b => (ch b).isEmpty = false).card
  | _ => 0

/-- The child slots that are not empty are the ones that a lookup can reach. -/
def Referenced : Node → Prop
  | n4 _ _ n _ ch => ∀ i, (ch i).isEmpty = false ↔ i.val < n
  | n16 _ _ n _ ch => ∀ i, (ch i).isEmpty = false ↔ i.val < n
  | n48 _ _ _ idx ch => (∀ b, idx b ≠ n48Nil → (idx b).toNat < 48) ∧
    ∀ s, (ch s).isEmpty = false ↔ ∃ b, idx b = UInt8.ofNat s.val
  | _ => True

def KeysAscend : Node → Prop
  | n4 _ _ n keys _ => Ascending n keys
  | n16 _ _ n keys _ => Ascending n keys
  | _ => True

/-- The numbers of children that the table of node types gives. -/
def InRange : Node → Prop
  | n4 _ _ n _ _ => 1 ≤ n ∧ n ≤ 4
  | n16 _ _ n _ _ => 5 ≤ n ∧ n ≤ 16
  | n48 _ _ n _ _ => 17 ≤ n ∧ n ≤ 48
  | n256 _ _ n _ => 49 ≤ n ∧ n ≤ 256
  | _ => True

theorem InRange.pos {node : Node} (h : node.InRange) (hin : node.isInner = true) :
    0 < node.nodeNChildren := by
  cases node with
  | empty => cases hin
  | leaf sfx => cases hin
  | _ => exact lt_of_lt_of_le (by decide) h.1

/-- The layout of an inner node. -/
structure Documented (node : Node) : Prop where
  count : node.nodeNChildren = node.nFull
  referenced : node.Referenced
  ascend : node.KeysAscend
  range : node.InRange

/-- What the layout adds to a sound node. -/
def Counted : Node → Prop
  | n4 _ _ n _ _ => 1 ≤ n
  | n16 _ _ n _ _ => 4 < n
  | n48 _ _ n _ _ => 16 < n
  | n256 _ _ n ch => n = (fullBytes ch).length
  | _ => True

/-- A full 48-node grows without loss when it has no child under `0xFF`. -/
def GrowsSafely : Node → Prop
  | n48 _ _ n idx _ => n = 48 → idx 0xFF = n48Nil
  | _ => True

/-- A 256-node does not count down, and a 4-node with a key of its own stays when its last child
    goes. -/
def DropsSafely : Node → Prop
  | n4 _ he n _ _ => he = true → n ≠ 1
  | n256 _ _ _ _ => False
  | _ => True

variable {node node' c : Node} {b : UInt8} {pfx : Bytes} {he : Bool} {n : ℕ}

section Counts

theorem SmallSound.nFull {cap : ℕ} {keys : Fin cap → UInt8} {ch : Fin cap → Node}
    (h : SmallSound n keys ch) :
    (Finset.univ.filter fun i => (ch i).isEmpty = false).card = n := by
  simp only [h.full]
  rw [Fin.card_filter_val_lt]
  exact min_eq_right h.le

/-- The used bytes and the full slots of a 48-node belong to each other. -/
theorem IndexSound.nFull {idx : UInt8 → UInt8} {ch : Fin 48 → Node} (h : IndexSound n idx ch) :
    (Finset.univ.filter fun s => (ch s).isEmpty = false).card = n := by
  rw [← h.count, length_usedBytes]
  symm
  refine Finset.card_bij (fun b hb => ⟨(idx b).toNat, h.inRange b (by simpa using hb)⟩) ?_ ?_ ?_
  · intro b hb
    have hslot : idx b = UInt8.ofNat (idx b).toNat := UInt8.ofNat_toNat.symm
    exact Finset.mem_filter.mpr ⟨Finset.mem_univ _, (h.full _).mpr ⟨b, hslot⟩⟩
  · intro b hb b' hb' heq
    exact h.inj b b' (by simpa using hb) (UInt8.toNat_inj.mp (Fin.mk.inj heq))
  · intro s hs
    obtain ⟨b, hb⟩ := (h.full s).mp (Finset.mem_filter.mp hs).2
    have hne : idx b ≠ n48Nil := by rw [hb]; exact ofNat_slot_ne_nil s
    refine ⟨b, by simpa using hne, Fin.ext ?_⟩
    show (idx b).toNat = s.val
    rw [hb, toNat_ofNat_slot]

theorem length_allBytes : allBytes.length = 256 := by
  rw [allBytes, List.length_map, List.length_range]

theorem length_fullBytes_le (ch : UInt8 → Node) : (fullBytes ch).length ≤ 256 := by
  refine (List.length_filter_le _ _).trans ?_
  rw [length_allBytes]

/-- The count of a 256-node is far from the end of its 16 bits. -/
theorem succ_lt_of_count {ch : UInt8 → Node} (hcount : n = (fullBytes ch).length) :
    n + 1 < 65536 := by
  have hle := length_fullBytes_le ch
  omega

/-- The children of a grown 48-node are the ones it had. -/
theorem length_fullBytes_grown {idx : UInt8 → UInt8} {ch : Fin 48 → Node} {ch' : UInt8 → Node}
    (h : IndexSound n idx ch)
    (hch' : ∀ b', ch' b' = ((n48 pfx he n idx ch).nodeChild b').getD empty) :
    (fullBytes ch').length = n := by
  rw [← h.count]
  unfold fullBytes usedBytes
  congr 2
  funext b
  rw [hch']
  by_cases hb : idx b = n48Nil
  · rw [(IndexSound.nodeChild_eq_none h).mpr hb, hb]
    rfl
  · obtain ⟨s, hs⟩ := h.exists_slot hb
    have hfull := (h.full s).mpr ⟨b, hs⟩
    rw [nodeChild_n48_eq_some.mpr ⟨s, hs, rfl⟩, Option.getD_some, hfull]
    simpa using hb

theorem recount_grown {idx : UInt8 → UInt8} {ch : Fin 48 → Node} {ch' : UInt8 → Node}
    (h : IndexSound n idx ch)
    (hch' : ∀ b', ch' b' = ((n48 pfx he n idx ch).nodeChild b').getD empty)
    (hnone : (n48 pfx he n idx ch).nodeChild b = none) (hc : c.isEmpty = false) :
    n + 1 = (fullBytes (Function.update ch' b c)).length := by
  have hempty : (ch' b).isEmpty = true := by rw [hch', hnone]; rfl
  rw [length_fullBytes_add hempty hc, length_fullBytes_grown h hch']

theorem isEmpty_of_nodeChild_n256 {ch : UInt8 → Node}
    (hnone : (n256 pfx he n ch).nodeChild b = none) : (ch b).isEmpty = true := by
  by_contra hfull
  rw [nodeChild_n256_eq_some.mpr ⟨rfl, by simpa using hfull⟩] at hnone
  cases hnone

theorem recount_add {ch : UInt8 → Node} (hcount : n = (fullBytes ch).length)
    (hnone : (n256 pfx he n ch).nodeChild b = none) (hc : c.isEmpty = false) :
    (n + 1) % 65536 = (fullBytes (Function.update ch b c)).length := by
  rw [length_fullBytes_add (isEmpty_of_nodeChild_n256 hnone) hc, ← hcount]
  exact Nat.mod_eq_of_lt (succ_lt_of_count hcount)

theorem recount_setChild {ch : UInt8 → Node} (hcount : n = (fullBytes ch).length) {c₀ : Node}
    (hc₀ : (n256 pfx he n ch).nodeChild b = some c₀) (hc : c.isEmpty = false) :
    n = (fullBytes (Function.update ch b c)).length := by
  obtain ⟨rfl, hne⟩ := nodeChild_n256_eq_some.mp hc₀
  rw [length_fullBytes_update (hc.trans hne.symm)]
  exact hcount

end Counts

/-- A sound node that counts is laid out as documented. -/
theorem Counted.documented (h : node.Counted) (hsound : node.Sound) : node.Documented := by
  cases node with
  | empty => exact ⟨rfl, trivial, trivial, trivial⟩
  | leaf sfx => exact ⟨rfl, trivial, trivial, trivial⟩
  | n4 pfx he n keys ch =>
    exact ⟨(SmallSound.nFull hsound).symm, SmallSound.full hsound, SmallSound.ascending hsound, h,
      SmallSound.le hsound⟩
  | n16 pfx he n keys ch =>
    exact ⟨(SmallSound.nFull hsound).symm, SmallSound.full hsound, SmallSound.ascending hsound, h,
      SmallSound.le hsound⟩
  | n48 pfx he n idx ch =>
    exact ⟨(IndexSound.nFull hsound).symm, ⟨IndexSound.inRange hsound, IndexSound.full hsound⟩,
      trivial, h, IndexSound.le hsound⟩
  | n256 pfx he n ch =>
    have hcount : n = (fullBytes ch).length := h
    refine ⟨?_, trivial, trivial, hsound.1, ?_⟩
    · show n = _
      rw [hcount, length_fullBytes]
      rfl
    · rw [hcount]
      exact length_fullBytes_le ch

theorem Counted.setChild {c₀ : Node} (hP : node.Counted) (hc : node.nodeChild b = some c₀)
    (hx : c.isEmpty = false) : (Node.setChild b c node).Counted := by
  cases node with
  | empty => cases hc
  | leaf sfx => cases hc
  | n4 pfx he n keys ch =>
    simp only [Node.setChild]
    split <;> exact hP
  | n16 pfx he n keys ch =>
    simp only [Node.setChild]
    split <;> exact hP
  | n48 pfx he n idx ch =>
    simp only [Node.setChild]
    split <;> exact hP
  | n256 pfx he n ch => exact recount_setChild hP hc hx

/-- A new child is counted, also by the kind that the node grows into. -/
theorem Counted.add (hsound : node.Sound) (hP : node.Counted) (hnone : node.nodeChild b = none)
    (hx : c.isEmpty = false) (hshape : AddShape b c node node') : node'.Counted := by
  cases hshape with
  | n4 => exact Nat.le_add_left 1 _
  | n4Full => exact Nat.lt_succ_self 4
  | n16 => exact Nat.lt_succ_of_lt hP
  | n16Full => exact Nat.lt_succ_self 16
  | n48 => exact Nat.lt_succ_of_lt hP
  | n48Full hch' => exact recount_grown hsound hch' hnone hx
  | n256 => exact recount_add hP hnone hx

/-- A node that gives up its own key is not too small for its kind. -/
theorem Counted.unend (hP : node.Counted) (hsettles : Settles (node.setHasEnd false) node') :
    node'.Counted := by
  cases node with
  | empty => cases hsettles; trivial
  | leaf sfx => cases hsettles; trivial
  | n4 pfx he n keys ch => cases hsettles; exact hP
  | n16 pfx he n keys ch =>
    have hP' : 4 < n := hP
    cases hsettles with
    | stay => exact hP
    | toN4 hn => exact absurd hP' (not_lt.mpr hn)
  | n48 pfx he n idx ch =>
    have hP' : 16 < n := hP
    cases hsettles with
    | stay => exact hP
    | toN16 hn => exact absurd hP' (not_lt.mpr hn)
  | n256 pfx he n ch => cases hsettles; exact hP

/-- A node that stays of its kind has children enough for it. -/
theorem Counted.del {del : Node} (hP : node.Counted) (hD : node.DropsSafely)
    (hshape : DelShape b node del) (hsettles : Settles del node') : node'.Counted := by
  cases hshape with
  | @n4 pfx he n _ _ _ _ hpos =>
    cases hsettles with
    | stay hsettled =>
      -- The last child of a node without a key of its own leaves nothing.
      have hone : he = true → n ≠ 1 := hD
      show 1 ≤ n - 1
      by_contra hlow
      exact hsettled.1.elim (fun hne => hlow (Nat.one_le_iff_ne_zero.mpr hne))
        fun hend => hone hend (by omega)
  | @n16 pfx he n _ _ _ _ =>
    have hP' : 4 < n := hP
    cases hsettles with
    | stay hsettled => exact hsettled
    | toN4 hn =>
      show 1 ≤ n - 1
      omega
  | @n48 pfx he n idx ch s hs =>
    have hP' : 16 < n := hP
    cases hsettles with
    | stay hsettled => exact hsettled
    | toN16 hn =>
      show 4 < n - 1
      omega
  | n256 => exact hD.elim

/-- **Counting is kept** by additions and deletions that keep the layout. -/
theorem kept_counted : Kept Counted (fun t _ => t.GrowsSafely) fun t _ => t.DropsSafely where
  room {node b} _ hP hA := by
    cases node with
    | n48 pfx he n idx ch => exact hA
    | n256 pfx he n ch => exact succ_lt_of_count hP
    | _ => trivial
  setPrefix {node} pfx hP := by cases node <;> exact hP
  setHasEnd {node} hP := by cases node <;> exact hP
  setChild _ hP hc hx := hP.setChild hc hx
  fork {pfx he kids node} hfork hlen _ := by
    obtain ⟨keys, ch, rfl⟩ := hfork.shape
    exact hlen
  add hsound hP _ hnone hx hshape := Counted.add hsound hP hnone hx hshape
  unend _ hP hsettles := hP.unend hsettles
  del _ hP hD _ hshape _ hsettles := hP.del hD hshape hsettles

section Trees

variable {Q : Node → Prop}

/-- A child of a sound node is empty or found by its byte. -/
theorem Sound.child_cases (h : node.Sound) (hc : node.Child c) :
    c = empty ∨ ∃ b, node.nodeChild b = some c := by
  cases node with
  | empty => cases hc
  | leaf sfx => cases hc
  | n4 pfx he n keys ch =>
    obtain ⟨i, hi, rfl⟩ := hc
    exact .inr ⟨keys i, (map_findKey_eq_some h.ascending).mpr ⟨i, hi, rfl, rfl⟩⟩
  | n16 pfx he n keys ch =>
    obtain ⟨i, hi, rfl⟩ := hc
    exact .inr ⟨keys i, (map_findKey_eq_some h.ascending).mpr ⟨i, hi, rfl, rfl⟩⟩
  | n48 pfx he n idx ch =>
    obtain ⟨s, rfl⟩ := hc
    cases hfull : (ch s).isEmpty with
    | true => exact .inl (isEmpty_eq_true.mp hfull)
    | false =>
      obtain ⟨b, hb⟩ := (IndexSound.full h s).mp hfull
      exact .inr ⟨b, nodeChild_n48_eq_some.mpr ⟨s, hb, rfl⟩⟩
  | n256 pfx he n ch =>
    obtain ⟨b, rfl⟩ := hc
    cases hfull : (ch b).isEmpty with
    | true => exact .inl (isEmpty_eq_true.mp hfull)
    | false => exact .inr ⟨b, nodeChild_n256_eq_some.mpr ⟨rfl, hfull⟩⟩

/-- Everything inside a tree is empty or a tree of the same kind. -/
theorem Each.within (hsound : ∀ t, Q t → t.Sound) {d : ℕ} {sub : Node}
    (h : node = empty ∨ Each Q node) (hsub : Within node d sub) : sub = empty ∨ Each Q sub := by
  induction hsub with
  | self => exact h
  | @deeper node c sub d hchild _ ih =>
    refine ih ?_
    rcases h with rfl | h
    · cases hchild
    cases h with
    | leaf sfx => cases hchild
    | inner hin hQ hbelow =>
      obtain hnil | ⟨b, hb⟩ := (hsound _ hQ).child_cases hchild
      · exact .inl hnil
      · exact .inr (hbelow b c hb)

theorem Counted.exists_child (h : node.Counted) (hsound : node.Sound) (hin : node.isInner = true) :
    ∃ b c, node.nodeChild b = some c := by
  by_contra hnone
  push Not at hnone
  have hnone' : ∀ b, node.nodeChild b = none := fun b => by
    cases hc : node.nodeChild b with
    | none => rfl
    | some c => exact absurd hc (hnone b c)
  cases node with
  | empty => cases hin
  | leaf sfx => cases hin
  | n4 pfx he n keys ch =>
    have hpos : 1 ≤ n := h
    exact map_findKey_eq_none.mp (hnone' (keys 0)) 0 hpos rfl
  | n16 pfx he n keys ch =>
    have hpos : 4 < n := h
    exact map_findKey_eq_none.mp (hnone' (keys 0)) 0 (Nat.zero_lt_of_lt hpos) rfl
  | n48 pfx he n idx ch =>
    have hpos : 16 < n := h
    have hunused : usedBytes idx = [] := by
      refine List.eq_nil_iff_forall_not_mem.mpr fun b hb => ?_
      exact mem_usedBytes.mp hb ((IndexSound.nodeChild_eq_none hsound).mp (hnone' b))
    have hcount := IndexSound.count hsound
    rw [hunused, List.length_nil] at hcount
    omega
  | n256 pfx he n ch =>
    have hpos : 48 < n := hsound.1
    have hcount : n = (fullBytes ch).length := h
    have hempty : fullBytes ch = [] := by
      refine List.eq_nil_iff_forall_not_mem.mpr fun b hb => ?_
      have hfull : (ch b).isEmpty = false := by simpa using (List.mem_filter.mp hb).2
      exact absurd ((nodeChild_n256_eq_some.mpr ⟨rfl, hfull⟩).symm.trans (hnone' b)) (by simp)
    rw [hempty, List.length_nil] at hcount
    omega

/-- A tree whose inner nodes have children holds a key. -/
theorem Each.exists_holds
    (hQ : ∀ t, Q t → t.isInner = true → ∃ b c, t.nodeChild b = some c) (h : Each Q node) :
    ∃ k, Holds node k := by
  induction h with
  | leaf sfx => exact ⟨sfx, .leaf sfx⟩
  | inner hin hnode _ ih =>
    obtain ⟨b, c, hc⟩ := hQ _ hnode hin
    obtain ⟨k, hk⟩ := ih b c hc
    exact ⟨_, .under hc hk⟩

end Trees

end Node

namespace IndexTree

/-- The layout of a tree: of its inner nodes, and that a part without keys is empty. -/
structure Documented (t : IndexTree) : Prop where
  inner : ∀ d sub, t.root.Within d sub → sub.isInner = true → sub.Documented
  vacant : ∀ d sub, t.root.Within d sub → (∀ k, ¬sub.Holds k) → sub = .empty

theorem Keeps.documented {t : IndexTree} {s : Finset Bytes} (h : Keeps Node.Counted t s) :
    t.Documented where
  inner d sub hsub hin := by
    obtain rfl | hsub := Node.Each.within (fun _ hQ => hQ.1) h.root hsub
    · cases hin
    · obtain ⟨⟨hsound, hcounted⟩, -⟩ := (Node.Each.inner_iff hin).mp hsub
      exact hcounted.documented hsound
  vacant d sub hsub hnone := by
    obtain hnil | hsub := Node.Each.within (fun _ hQ => hQ.1) h.root hsub
    · exact hnil
    · obtain ⟨k, hk⟩ := hsub.exists_holds fun _ hQ hin => hQ.2.exists_child hQ.1 hin
      exact absurd hk (hnone k)

end IndexTree

/-- A call that keeps the layout. -/
def SetOp.KeepsLayout : IndexTree → SetOp → Prop :=
  SetOp.Allowed (fun node _ => node.GrowsSafely) fun node _ => node.DropsSafely

/-- **The layout** is the documented one after every run of calls that keep it. -/
theorem documented_run {ops : List SetOp} (hrun : RunsWithin SetOp.KeepsLayout ops) :
    ∃ t answers, treeRun ops = some (t, answers) ∧ t.Documented := by
  obtain ⟨t, ht, hkeeps⟩ := IndexTree.keeps_run Node.kept_counted hrun
  exact ⟨t, _, ht, hkeeps.documented⟩

/-- Above leaves only, a removal drops a child of the node or none. -/
theorem Node.dropsWithin_of_flat {G : Node → UInt8 → Prop} {node : Node} {key : Bytes}
    (hflat : ∀ b c, node.nodeChild b = some c → c.isInner = false) (hG : ∀ b, G node b) :
    node.DropsWithin G key := by
  intro t b rest c hvisit hc _
  generalize hr : t.nodePrefix ++ b :: rest = r at hvisit
  cases hvisit with
  | here => exact hG b
  | under hc' hbelow =>
    have hleaf := hflat _ _ hc'
    cases hbelow with
    | here => rw [Node.isInner_of_nodeChild hc] at hleaf; cases hleaf
    | under hc'' => rw [Node.isInner_of_nodeChild hc''] at hleaf; cases hleaf

/-- The tree before the removal of `splitOps`: a node without a key of its own above two leaves. -/
def splitCheck (r : IndexTree × List Bool) : Bool :=
  match r.1.root with
  | .n4 _ he _ _ ch => !he && (List.finRange 4).all fun i => !(ch i).isInner
  | _ => false

theorem splitCheck_of_treeRun {r : IndexTree × List Bool}
    (hr : treeRun [.insert [1, 2], .insert [1, 3]] = some r) : splitCheck r = true := by
  have hcheck : (treeRun [.insert [1, 2], .insert [1, 3]]).all splitCheck = true := by
    decide +kernel
  rw [hr] at hcheck
  exact hcheck

theorem dropsWithin_splitCheck {G : Node → UInt8 → Prop}
    (hG : ∀ pfx n keys ch b, G (.n4 pfx false n keys ch) b) {r : IndexTree × List Bool}
    (h : splitCheck r = true) {key : Bytes} : r.1.root.DropsWithin G key := by
  unfold splitCheck at h
  split at h
  · next pfx he n keys ch heq =>
    rw [heq]
    simp only [Bool.and_eq_true, Bool.not_eq_true', List.all_eq_true] at h
    rw [h.1]
    refine Node.dropsWithin_of_flat (fun b c hc => ?_) (hG pfx n keys ch)
    obtain ⟨i, -, rfl⟩ := Option.map_eq_some_iff.mp hc
    exact h.2 i (List.mem_finRange i)
  · cases h

theorem documented_splitOps :
    ∃ t answers, treeRun splitOps = some (t, answers) ∧ t.Documented := by
  refine documented_run (runsWithin_splitOps ?_ ?_ fun r hr => ?_)
  · exact Node.addsWithin_of_not_inner rfl
  · exact Node.addsWithin_of_not_inner rfl
  · exact dropsWithin_splitCheck (fun _ _ _ _ _ hend => absurd hend Bool.false_ne_true)
      (splitCheck_of_treeRun hr)

/-- The longer of two keys goes: the node above it has no child left, and stays. -/
def hollowOps : List SetOp := [.insert [1], .insert [1, 2], .remove [1, 2]]

theorem not_documented_hollowOps :
    ¬∃ t answers, treeRun hollowOps = some (t, answers) ∧ t.Documented := by
  rintro ⟨t, answers, ht, hdoc⟩
  have hshape : (treeRun hollowOps).map (fun r => (r.1.root.isInner, r.1.root.nodeNChildren)) =
      some (true, 0) := by
    decide +kernel
  rw [ht, Option.map_some, Option.some.injEq, Prod.mk.injEq] at hshape
  obtain ⟨hin, hzero⟩ := hshape
  have hpos := (hdoc.inner 0 t.root (.self _) hin).range.pos hin
  exact absurd hzero (Nat.ne_of_gt hpos)

end Arkiv
