import Mathlib
import Arkiv.IndexTree.Contents

/-!
# Removals

What a removal does along the path of its key, and that it takes the key out of
the set of keys.

## Main definitions

- `Node.Removes` — the cases of `remove_node`
- `Node.Removes.each` — what a removal keeps
- `Node.Each.exists_removes`, `Node.Removes.holds` — a removal takes its key out
-/

namespace Arkiv.Node

open ByteString

/-- The cases of `remove_node`. -/
inductive Removes : Node → Bytes → Node → Bool → Prop
  | absent {node : Node} {key : Bytes} (h : ¬Holds node key) : Removes node key node false
  | leaf (sfx : Bytes) : Removes (leaf sfx) sfx empty true
  | atEnd {node node' : Node} (hin : node.isInner = true) (hend : node.nodeHasEnd = true)
      (hshrink : (node.setHasEnd false).nodeMaybeShrink = some node') :
      Removes node node.nodePrefix node' true
  | under {node c c' : Node} {b : UInt8} {rest : Bytes} (hc : node.nodeChild b = some c)
      (h : Removes c rest c' true) (hleft : c'.isEmpty = false) :
      Removes node (node.nodePrefix ++ b :: rest) (setChild b c' node) true
  | drop {node c del node' : Node} {b : UInt8} {rest : Bytes} (hc : node.nodeChild b = some c)
      (h : Removes c rest empty true) (hdel : (setChild b empty node).nodeDelChild b = some del)
      (hshrink : del.nodeMaybeShrink = some node') :
      Removes node (node.nodePrefix ++ b :: rest) node' true

variable {node c : Node} {key rest : Bytes} {b : UInt8}

/-- The recursive call of a removal, by child. -/
def removeChild (node : Node) (b : UInt8) (rest : Bytes) : Option (Option (Node × Bool)) :=
  (node.nodeChild b).map fun c => (removeNode c rest).map fun r => (setChild b r.1 node, r.2)

theorem removeNode_eq (hin : node.isInner = true) (h : node.IndexInRange) (key : Bytes) :
    removeNode node key = removeInner node key (removeChild node) := by
  cases node with
  | empty => cases hin
  | leaf sfx => cases hin
  | n4 pfx he n keys ch =>
    rw [removeNode]
    congr 1
    funext b rest
    unfold removeChild
    cases hfind : findKey n keys b with
    | none => simp [nodeChild, hfind]
    | some i => simp [nodeChild, Node.setChild, hfind]
  | n16 pfx he n keys ch =>
    rw [removeNode]
    congr 1
    funext b rest
    unfold removeChild
    cases hfind : findKey n keys b with
    | none => simp [nodeChild, hfind]
    | some i => simp [nodeChild, Node.setChild, hfind]
  | n48 pfx he n idx ch =>
    rw [removeNode]
    congr 1
    funext b rest
    unfold removeChild
    by_cases hnil : idx b = n48Nil
    · rw [if_pos hnil, nodeChild_n48_of_nil hnil]
      rfl
    · have hlt : (idx b).toNat < 48 := h b hnil
      simp [nodeChild, Node.setChild, hnil, hlt]
  | n256 pfx he n ch =>
    rw [removeNode]
    congr 1
    funext b rest
    unfold removeChild
    by_cases hempty : (ch b).isEmpty = true
    · simp [nodeChild, hempty]
    · simp [nodeChild, Node.setChild, hempty]

theorem Removes.eq_of_false {node' : Node} (h : Removes node key node' false) :
    node' = node ∧ ¬Holds node key := by
  cases h with
  | absent h => exact ⟨rfl, h⟩

/-- A key that leaves the prefix of a node is not below it. -/
theorem not_holds_of_diverges (hin : node.isInner = true) {q s : Bytes}
    (hpfx : node.nodePrefix = q ++ b :: s)
    (hkey : key = q ∨ ∃ b' t, b' ≠ b ∧ key = q ++ b' :: t) : ¬Holds node key := by
  intro h
  have hprefix : ∃ t, key = node.nodePrefix ++ t := by
    rcases (holds_inner hin).mp h with ⟨-, rfl⟩ | ⟨b', rest, c, rfl, -⟩
    · exact ⟨[], by simp⟩
    · exact ⟨_, rfl⟩
  obtain ⟨t, ht⟩ := hprefix
  rw [hpfx, List.append_assoc, List.cons_append] at ht
  rcases hkey with rfl | ⟨b', u, hne, rfl⟩
  · simp at ht
  · exact hne (branch_inj ht).1

theorem removeInner_through (t : Bytes)
    (recurse : UInt8 → Bytes → Option (Option (Node × Bool))) :
    removeInner node (node.nodePrefix ++ t) recurse =
      match t with
      | [] =>
        if node.nodeHasEnd then (node.setHasEnd false).nodeMaybeShrink.map (·, true)
        else some (node, false)
      | b :: rest =>
        match recurse b rest with
        | none => some (node, false)
        | some none => none
        | some (some (node', removed)) =>
          if removed && node'.nodeChildIsEmpty b then
            (node'.nodeDelChild b).bind fun del => del.nodeMaybeShrink.map (·, true)
          else some (node', removed) := by
  unfold removeInner
  rw [commonPrefix_append, if_neg (lt_irrefl _), List.drop_left]
  cases t <;> rfl

/-- **A removal succeeds** in a sound tree, by one of the cases. -/
theorem Each.exists_removes (h : Each Sound node) (key : Bytes) :
    ∃ node' gone, removeNode node key = some (node', gone) ∧ Removes node key node' gone := by
  induction h generalizing key with
  | leaf sfx =>
    rw [removeNode]
    by_cases hkey : sfx = key
    · rw [if_pos hkey, ← hkey]
      exact ⟨_, _, rfl, .leaf sfx⟩
    · rw [if_neg hkey]
      exact ⟨_, _, rfl, .absent fun h => hkey (holds_leaf.mp h).symm⟩
  | @inner node hin hsound hchild ih =>
    rw [removeNode_eq hin hsound.indexInRange]
    rcases commonPrefix_cases node.nodePrefix key with ⟨t, rfl⟩ | ⟨q, b, s, hpfx, hcommon, hkey⟩
    swap
    · unfold removeInner
      rw [hcommon, hpfx, if_pos (by simp)]
      exact ⟨_, _, rfl, .absent (not_holds_of_diverges hin hpfx hkey)⟩
    rw [removeInner_through]
    cases t with
    | nil =>
      rw [List.append_nil]
      cases hend : node.nodeHasEnd with
      | true =>
        obtain ⟨node', hshrink, -⟩ := (hsound.setHasEnd false).shrink
          (by rw [isInner_setHasEnd, hin])
        refine ⟨node', true, ?_, .atEnd hin hend hshrink⟩
        simp only [if_true, hshrink, Option.map_some]
      | false =>
        refine ⟨_, _, rfl, .absent ?_⟩
        rw [holds_here hin, hend]
        simp
    | cons b rest =>
      dsimp only
      unfold removeChild
      cases hc : node.nodeChild b with
      | none =>
        refine ⟨_, _, rfl, .absent ?_⟩
        rw [holds_branch hin, hc]
        simp
      -- The child is unlinked only when the key was in it and nothing is left of it.
      | some c =>
        obtain ⟨c', gone, heq, hremoves⟩ := ih b c hc rest
        rw [Option.map_some, heq]
        simp only [Option.map_some]
        rw [nodeChildIsEmpty_setChild hc]
        cases gone with
        | false =>
          obtain ⟨rfl, habsent⟩ := hremoves.eq_of_false
          refine ⟨_, _, rfl, ?_⟩
          rw [setChild_self hc]
          refine .absent ?_
          rw [holds_branch hin, hc]
          simpa using habsent
        | true =>
          cases hempty : c'.isEmpty with
          | false => exact ⟨_, _, rfl, .under hc hremoves hempty⟩
          | true =>
            obtain rfl := isEmpty_eq_true.mp hempty
            obtain ⟨del, hdel, hsound', hview⟩ := hsound.del hc
            obtain ⟨node', hshrink, -⟩ := hsound'.shrink hview.inner
            refine ⟨node', true, ?_, .drop hc hremoves hdel hshrink⟩
            simp only [Bool.and_self, if_true, hdel, Option.bind_some, hshrink, Option.map_some]

/-- What a node shrinks to holds the same keys. -/
theorem Shrinks.holds {node' : Node} (h : Shrinks node node') (hin : node.isInner = true) (k : Bytes) :
    Holds node' k ↔ Holds node k := by
  cases h with
  | gone hend hnone =>
    rw [holds_inner hin, hend]
    simp [hnone, not_holds_empty]
  | @merge b c hend hchild =>
    rw [holds_inner hin, hend, holds_prependInto]
    simp only [hchild]
    constructor
    · rintro ⟨rest, rfl, hrest⟩
      exact .inr ⟨b, rest, c, rfl, if_pos rfl, hrest⟩
    · rintro (⟨hfalse, -⟩ | ⟨b', rest, c', rfl, hc, hrest⟩)
      · cases hfalse
      · split at hc
        · next hb =>
          subst hb
          obtain rfl := Option.some.inj hc
          exact ⟨rest, rfl, hrest⟩
        · cases hc
  | keep hsound halike => exact halike.holds hin

/-- **A removal takes its key out**, and reports whether it was there. -/
theorem Removes.holds {node' : Node} {gone : Bool} (h : Removes node key node' gone)
    (hv : Each Sound node) :
    (∀ k, Holds node' k ↔ k ≠ key ∧ Holds node k) ∧ (gone = true ↔ Holds node key) := by
  induction h with
  | absent habsent =>
    refine ⟨fun k => ⟨fun h => ⟨?_, h⟩, fun h => h.2⟩, iff_of_false (by simp) habsent⟩
    rintro rfl
    exact habsent h
  | leaf sfx =>
    refine ⟨fun k => ?_, iff_of_true rfl (.leaf sfx)⟩
    rw [holds_leaf]
    exact iff_of_false not_holds_empty fun h => h.1 h.2
  -- The end mark goes first, and shrinking leaves the strings as they are.
  | @atEnd node node' hin hend hshrink =>
    obtain ⟨hsound, -⟩ := (Each.inner_iff hin).mp hv
    have hin' : (node.setHasEnd false).isInner = true := by rw [isInner_setHasEnd, hin]
    obtain ⟨node'', hshrink', hcase⟩ := (hsound.setHasEnd false).shrink hin'
    obtain rfl := Option.some.inj (hshrink'.symm.trans hshrink)
    refine ⟨fun k => ?_, iff_of_true rfl ((holds_here hin).mpr hend)⟩
    rw [hcase.holds hin']
    by_cases hk : k = node.nodePrefix
    · have hset := holds_here hin'
      rw [nodePrefix_setHasEnd, nodeHasEnd_setHasEnd hin] at hset
      rw [hk, hset]
      simp
    · rw [holds_setHasEnd_other hin hk]
      exact (and_iff_right hk).symm
  | @under node c c' b rest hc h hleft ih =>
    have hin := isInner_of_nodeChild hc
    obtain ⟨hsound, hchild⟩ := (Each.inner_iff hin).mp hv
    obtain ⟨hholds, hgone⟩ := ih (hchild b c hc)
    have hview := (hsound.setChild hc hleft).2
    refine ⟨fun k => ?_, ?_⟩
    · by_cases hk : ∃ r, k = node.nodePrefix ++ b :: r
      · obtain ⟨r, rfl⟩ := hk
        rw [hview.holds_branch, holds_branch hin, hc]
        simp only [Option.some.injEq, exists_eq_left', hholds, ne_eq, List.append_cancel_left_eq,
          List.cons.injEq, true_and]
      · rw [hview.holds_other hin fun r hr => hk ⟨r, hr⟩]
        exact (and_iff_right fun heq => hk ⟨rest, heq⟩).symm
    · rw [hgone, holds_branch hin, hc]
      simp only [Option.some.injEq, exists_eq_left']
  -- Nothing was left in the child, so the whole branch goes.
  | @drop node c del node' b rest hc h hdel hshrink ih =>
    have hin := isInner_of_nodeChild hc
    obtain ⟨hsound, hchild⟩ := (Each.inner_iff hin).mp hv
    obtain ⟨hholds, hgone⟩ := ih (hchild b c hc)
    obtain ⟨del', hdel', hsound', hview⟩ := hsound.del hc
    obtain rfl := Option.some.inj (hdel'.symm.trans hdel)
    obtain ⟨node'', hshrink', hcase⟩ := hsound'.shrink hview.inner
    obtain rfl := Option.some.inj (hshrink'.symm.trans hshrink)
    refine ⟨fun k => ?_, ?_⟩
    · rw [hcase.holds hview.inner]
      by_cases hk : ∃ r, k = node.nodePrefix ++ b :: r
      · obtain ⟨r, rfl⟩ := hk
        have hr := hholds r
        rw [hview.holds_branch, holds_branch hin, hc]
        simp only [not_holds_empty, false_iff] at hr
        simp only [reduceCtorEq, false_and, exists_false, ne_eq, List.append_cancel_left_eq,
          List.cons.injEq, true_and, Option.some.injEq, exists_eq_left', hr]
      · rw [hview.holds_other hin fun r hr => hk ⟨r, hr⟩]
        exact (and_iff_right fun heq => hk ⟨rest, heq⟩).symm
    · exact iff_of_true rfl ((holds_branch hin).mpr ⟨c, hc, hgone.mp rfl⟩)

/-- Where a removal takes the last key below a child, the node and the byte are in `G`. -/
def DropsWithin (G : Node → UInt8 → Prop) (node : Node) (key : Bytes) : Prop :=
  ∀ t b rest c, Visits node key t (t.nodePrefix ++ b :: rest) → t.nodeChild b = some c →
    (∀ k, Holds c k ↔ k = rest) → G t b

theorem DropsWithin.child {G : Node → UInt8 → Prop}
    (h : DropsWithin G node (node.nodePrefix ++ b :: rest)) (hc : node.nodeChild b = some c) :
    DropsWithin G c rest :=
  fun t b' rest' c' hvisit => h t b' rest' c' (.under hc hvisit)

/-- A property of inner nodes that the changes of a removal keep, where it drops within `G`. The
    last two are about nodes that neither vanish nor merge. -/
structure RemoveClosed (Q : Node → Prop) (G : Node → UInt8 → Prop) : Prop where
  sound : ∀ {node}, Q node → node.Sound
  setPrefix : ∀ {node} (pfx : Bytes), Q node → Q (node.setPrefix pfx)
  setChild : ∀ {node b c₀ c}, Q node → node.nodeChild b = some c₀ → c.isEmpty = false →
    Q (Node.setChild b c node)
  shrinkEnd : ∀ {node node'}, Q node → node.isInner = true →
    (node.setHasEnd false).nodeMaybeShrink = some node' → Alike (node.setHasEnd false) node' → Q node'
  shrinkDel : ∀ {node b c₀ del node'}, Q node → G node b → node.nodeChild b = some c₀ →
    (Node.setChild b empty node).nodeDelChild b = some del → del.nodeMaybeShrink = some node' →
    Alike del node' → Q node'

theorem removeClosed_sound : RemoveClosed Sound fun _ _ => True where
  sound h := h
  setPrefix pfx h := h.setPrefix pfx
  setChild h hc hx := (h.setChild hc hx).1
  shrinkEnd {node node'} h hin hshrink halike := by
    have hin' : (node.setHasEnd false).isInner = true := by rw [isInner_setHasEnd, hin]
    exact (h.setHasEnd false).of_shrink hin' hshrink halike
  shrinkDel {node b c₀ del node'} h _ hc hdel hshrink halike := by
    obtain ⟨del', hdel', hsound, hview⟩ := h.del hc
    obtain rfl := Option.some.inj (hdel'.symm.trans hdel)
    exact hsound.of_shrink hview.inner hshrink halike

/-- Every child of the result is a child of before, up to a prefix. -/
theorem Shrinks.each {Q : Node → Prop} {node' : Node} (h : Shrinks node node')
    (hset : ∀ {t : Node} (pfx : Bytes), Q t → Q (t.setPrefix pfx))
    (hchild : ∀ b c, node.nodeChild b = some c → Each Q c)
    (hQ : Alike node node' → Q node') : node' = empty ∨ Each Q node' := by
  cases h with
  | gone hend hnone => exact .inl rfl
  | @merge b c hend hview =>
    refine .inr ((Each.prependInto_iff hset).mpr (hchild b c ?_))
    rw [hview, if_pos rfl]
  | keep hsound halike =>
    refine .inr (.inner halike.inner (hQ halike) fun b c hc => hchild b c ?_)
    rw [← halike.child, hc]

/-- **A removal keeps** what its changes keep, in what is left. -/
theorem Removes.each {Q : Node → Prop} {G : Node → UInt8 → Prop} (hclosed : RemoveClosed Q G)
    {node' : Node} {gone : Bool} (h : Removes node key node' gone) (hv : Each Q node)
    (hsafe : DropsWithin G node key) : node' = empty ∨ Each Q node' := by
  induction h with
  | absent habsent => exact .inr hv
  | leaf sfx => exact .inl rfl
  | @atEnd node node' hin hend hshrink =>
    obtain ⟨hQ, hchild⟩ := (Each.inner_iff hin).mp hv
    have hin' : (node.setHasEnd false).isInner = true := by rw [isInner_setHasEnd, hin]
    obtain ⟨node'', hshrink', hcase⟩ := ((hclosed.sound hQ).setHasEnd false).shrink hin'
    obtain rfl := Option.some.inj (hshrink'.symm.trans hshrink)
    refine hcase.each hclosed.setPrefix (fun b c hc => ?_) (hclosed.shrinkEnd hQ hin hshrink)
    rw [nodeChild_setHasEnd] at hc
    exact hchild b c hc
  | @under node c c' b rest hc h hleft ih =>
    obtain ⟨hQ, hchild⟩ := (Each.inner_iff (isInner_of_nodeChild hc)).mp hv
    have hview := ((hclosed.sound hQ).setChild hc hleft).2
    have hc' : Each Q c' := by
      refine (ih (hchild b c hc) (hsafe.child hc)).resolve_left ?_
      exact isEmpty_eq_false.mp hleft
    refine .inr (.inner hview.inner (hclosed.setChild hQ hc hleft) fun b' x hx => ?_)
    rw [hview.child] at hx
    split at hx
    · rwa [← Option.some.inj hx]
    · exact hchild b' x hx
  | @drop node c del node' b rest hc h hdel hshrink ih =>
    obtain ⟨hQ, hchild⟩ := (Each.inner_iff (isInner_of_nodeChild hc)).mp hv
    obtain ⟨del', hdel', hsound', hview⟩ := (hclosed.sound hQ).del hc
    obtain rfl := Option.some.inj (hdel'.symm.trans hdel)
    obtain ⟨node'', hshrink', hcase⟩ := hsound'.shrink hview.inner
    obtain rfl := Option.some.inj (hshrink'.symm.trans hshrink)
    obtain ⟨hholds, hgone⟩ := h.holds ((hchild b c hc).mono fun _ => hclosed.sound)
    have honly : ∀ k, Holds c k ↔ k = rest := by
      intro k
      have hk := hholds k
      simp only [not_holds_empty, false_iff, not_and_or, not_not] at hk
      constructor
      · intro hck
        exact hk.resolve_right fun h => h hck
      · rintro rfl
        exact hgone.mp rfl
    have hG := hsafe node b rest c (.here _ _) hc honly
    refine hcase.each hclosed.setPrefix (fun b' x hx => ?_)
      (hclosed.shrinkDel hQ hG hc hdel hshrink)
    rw [hview.child] at hx
    split at hx
    · cases hx
    · exact hchild b' x hx

end Arkiv.Node
