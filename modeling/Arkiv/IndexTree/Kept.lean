import Mathlib
import Arkiv.IndexTree.Kinds
import Arkiv.IndexTree.Refinement

/-!
# Invariants of trees

What a run keeps in every inner node, read off the kinds of nodes that its calls
leave. An invariant only has to say what it makes of one more child, one child
less and a conversion.

## Main definitions

- `Node.Kept` — a property that additions and deletions keep, where they are allowed
- `SetOp.Allowed` — the calls that add and delete where they are allowed
- `IndexTree.Keeps` — a tree that holds a set and whose inner nodes have the property
- `IndexTree.keeps_run` — what a run of allowed calls leaves
-/

namespace Arkiv

open ByteString

namespace Node

/-- A property of sound inner nodes that a call keeps, where children are added within `A` and
    dropped within `D`. -/
structure Kept (P : Node → Prop) (A D : Node → UInt8 → Prop) : Prop where
  room : ∀ {node b}, node.Sound → P node → A node b → node.AddsSafely
  setPrefix : ∀ {node} (pfx : Bytes), P node → P (node.setPrefix pfx)
  setHasEnd : ∀ {node}, P node → P (node.setHasEnd true)
  setChild : ∀ {node b c₀ c}, node.Sound → P node → node.nodeChild b = some c₀ →
    c.isEmpty = false → P (Node.setChild b c node)
  fork : ∀ {pfx he kids node}, Fork pfx he kids node → 0 < kids.length →
    (he = true ∨ 1 < kids.length) → P node
  add : ∀ {node b c node'}, node.Sound → P node → A node b → node.nodeChild b = none →
    c.isEmpty = false → AddShape b c node node' → P node'
  unend : ∀ {node node'}, node.Sound → P node → Settles (node.setHasEnd false) node' → P node'
  del : ∀ {node b c₀ del node'}, node.Sound → P node → D node b → node.nodeChild b = some c₀ →
    DelShape b node del → del.Sound → Settles del node' → P node'

variable {P : Node → Prop} {A D : Node → UInt8 → Prop} {node t : Node} {key r : Bytes}

theorem Kept.insertClosed (h : Kept P A D) : InsertClosed (fun t => t.Sound ∧ P t) A where
  sound hQ := hQ.1
  room hQ hA := h.room hQ.1 hQ.2 hA
  setPrefix pfx hQ := ⟨hQ.1.setPrefix pfx, h.setPrefix pfx hQ.2⟩
  setHasEnd hQ := ⟨hQ.1.setHasEnd true, h.setHasEnd hQ.2⟩
  setChild hQ hc hx := ⟨(hQ.1.setChild hc hx).1, h.setChild hQ.1 hQ.2 hc hx⟩
  fork hfork hlen hpath := ⟨hfork.sound, h.fork hfork hlen hpath⟩
  add hQ hin hA hnone hx hgrow hadd := by
    have hsafe := h.room hQ.1 hQ.2 hA
    have hshape := hQ.1.addShape hin hsafe hnone hgrow hadd
    refine ⟨?_, h.add hQ.1 hQ.2 hA hnone hx hshape⟩
    exact insertClosed_sound.add hQ.1 hin hsafe hnone hx hgrow hadd

theorem Kept.removeClosed (h : Kept P A D) : RemoveClosed (fun t => t.Sound ∧ P t) D where
  sound hQ := hQ.1
  setPrefix pfx hQ := ⟨hQ.1.setPrefix pfx, h.setPrefix pfx hQ.2⟩
  setChild hQ hc hx := ⟨(hQ.1.setChild hc hx).1, h.setChild hQ.1 hQ.2 hc hx⟩
  shrinkEnd {node node'} hQ hin hshrink halike := by
    have hin' : (node.setHasEnd false).isInner = true := by rw [isInner_setHasEnd, hin]
    have hsound := hQ.1.setHasEnd false
    exact ⟨hsound.of_shrink hin' hshrink halike,
      h.unend hQ.1 hQ.2 (hsound.settles hin' hshrink halike)⟩
  shrinkDel {node b c₀ del node'} hQ hD hc hdel hshrink halike := by
    obtain ⟨del', hdel', hsound, hview⟩ := hQ.1.del hc
    obtain rfl := Option.some.inj (hdel'.symm.trans hdel)
    refine ⟨hsound.of_shrink hview.inner hshrink halike, ?_⟩
    exact h.del hQ.1 hQ.2 hD hc (hQ.1.delShape hc hdel) hsound
      (hsound.settles hview.inner hshrink halike)

/-- The nodes on the path of a key have the property of the tree. -/
theorem Each.visits {Q : Node → Prop} (h : Each Q node) (hvisit : Visits node key t r)
    (hin : t.isInner = true) : Q t := by
  induction hvisit with
  | here node key => exact ((Each.inner_iff hin).mp h).1
  | under hc _ ih => exact ih (((Each.inner_iff (isInner_of_nodeChild hc)).mp h).2 _ _ hc) hin

/-- Where additions are allowed there is room for them. -/
theorem Kept.insertsSafely (h : Kept P A D)
    (hnode : node = empty ∨ node.Each fun t => t.Sound ∧ P t) (hsafe : AddsWithin A node key) :
    InsertsSafely node key := by
  rcases hnode with rfl | hnode
  · exact addsWithin_of_not_inner rfl
  · intro t b rest hvisit hin hnone
    obtain ⟨hsound, hP⟩ := hnode.visits hvisit hin
    exact h.room hsound hP (hsafe t b rest hvisit hin hnone)

end Node

/-- A call that adds children within `A` and drops them within `D`. -/
def SetOp.Allowed (A D : Node → UInt8 → Prop) (t : IndexTree) : SetOp → Prop
  | .insert key => t.root.AddsWithin A key
  | .remove key => t.root.DropsWithin D key

namespace IndexTree

variable {P : Node → Prop} {A D : Node → UInt8 → Prop} {t : IndexTree} {s : Finset Bytes}

/-- The tree holds the set and its inner nodes have the property; its 64-bit counter may have
    wrapped. -/
structure Keeps (P : Node → Prop) (t : IndexTree) (s : Finset Bytes) : Prop where
  root : t.root = .empty ∨ t.root.Each fun node => node.Sound ∧ P node
  holds : ∀ k, t.root.Holds k ↔ k ∈ s
  len : t.len = s.card % 2 ^ 64

theorem Keeps.sound (h : Keeps P t s) : t.root = .empty ∨ t.root.Each Node.Sound :=
  h.root.imp_right fun hroot => hroot.mono fun _ hQ => hQ.1

theorem Keeps.keys (h : Keeps P t s) : ∃ l, t.keys = some l ∧ l.Nodup ∧ ∀ k, k ∈ l ↔ k ∈ s :=
  exists_keys h.sound h.holds

theorem keeps_new : Keeps P new ∅ where
  root := .inl rfl
  holds _ := iff_of_false Node.not_holds_empty (by simp)
  len := rfl

theorem Keeps.insert (hkept : Node.Kept P A D) (h : Keeps P t s) {key : Bytes}
    (hsafe : t.root.AddsWithin A key) :
    ∃ t', t.insert key = some (t', decide (key ∉ s)) ∧ Keeps P t' (Insert.insert key s) := by
  obtain ⟨root', heq, hinserts, hholds⟩ :=
    exists_insertNode h.sound h.holds (hkept.insertsSafely h.root hsafe)
  have hroot := hinserts.each hkept.insertClosed h.root hsafe
  have hlen := h.len
  unfold IndexTree.insert
  rw [heq, Option.map_some]
  dsimp only
  by_cases hmem : key ∈ s
  · rw [decide_eq_false (not_not.mpr hmem)]
    refine ⟨⟨root', t.len⟩, rfl, .inr hroot, hholds, ?_⟩
    rw [Finset.insert_eq_of_mem hmem]
    exact hlen
  · rw [decide_eq_true hmem]
    refine ⟨⟨root', (t.len + 1) % 2 ^ 64⟩, rfl, .inr hroot, hholds, ?_⟩
    rw [Finset.card_insert_of_notMem hmem]
    show (t.len + 1) % 2 ^ 64 = (s.card + 1) % 2 ^ 64
    omega

theorem Keeps.remove (hkept : Node.Kept P A D) (h : Keeps P t s) {key : Bytes}
    (hsafe : t.root.DropsWithin D key) :
    ∃ t', t.remove key = some (t', decide (key ∈ s)) ∧ Keeps P t' (s.erase key) := by
  obtain ⟨root', heq, hcase, hholds⟩ := exists_removeNode h.sound h.holds key
  have hroot : root' = .empty ∨ root'.Each fun node => node.Sound ∧ P node := by
    rcases hcase with ⟨hnil, rfl⟩ | hremoves
    · exact .inl hnil
    · rcases h.root with hnil | hroot
      · rw [hnil, Node.removeNode, Option.some.injEq, Prod.mk.injEq] at heq
        exact .inl heq.1.symm
      · exact hremoves.each hkept.removeClosed hroot hsafe
  have hlen := h.len
  unfold IndexTree.remove
  rw [heq, Option.map_some]
  dsimp only
  by_cases hmem : key ∈ s
  · have hpos : 0 < s.card := Finset.card_pos.mpr ⟨key, hmem⟩
    rw [decide_eq_true hmem]
    refine ⟨⟨root', (t.len + 2 ^ 64 - 1) % 2 ^ 64⟩, rfl, hroot, hholds, ?_⟩
    rw [Finset.card_erase_of_mem hmem]
    show (t.len + 2 ^ 64 - 1) % 2 ^ 64 = (s.card - 1) % 2 ^ 64
    omega
  · rw [decide_eq_false hmem]
    refine ⟨⟨root', t.len⟩, rfl, hroot, hholds, ?_⟩
    rw [Finset.erase_eq_of_notMem hmem]
    exact hlen

/-- **Run**: allowed calls keep what the invariant says, and answer like the set. -/
theorem keeps_run (hkept : Node.Kept P A D) {ops : List SetOp}
    (hrun : RunsWithin (SetOp.Allowed A D) ops) :
    ∃ t, treeRun ops = some (t, (setRun ops).2) ∧ Keeps P t (setRun ops).1 := by
  induction ops using List.reverseRecOn with
  | nil => exact ⟨new, rfl, keeps_new⟩
  | append_singleton ops op ih =>
    obtain ⟨t, ht, hkeeps⟩ := ih hrun.init
    have hallowed := hrun.last ht
    rw [setRun_snoc, treeRun_snoc, ht, Option.bind_some]
    cases op with
    | insert key =>
      obtain ⟨t', hinsert, hkeeps'⟩ := hkeeps.insert hkept hallowed
      exact ⟨t', by rw [SetOp.onTree, hinsert]; rfl, hkeeps'⟩
    | remove key =>
      obtain ⟨t', hremove, hkeeps'⟩ := hkeeps.remove hkept hallowed
      exact ⟨t', by rw [SetOp.onTree, hremove]; rfl, hkeeps'⟩

end IndexTree

end Arkiv
