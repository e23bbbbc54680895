import Mathlib
import Arkiv.IndexTree.Operations

/-!
# What a tree holds

The keys below a node, what an insertion does along the path of its key, and
that it does it to the set of keys.

## Main definitions

- `Node.Each` — a property of every inner node of a tree
- `Node.Holds` — a key is in the tree
- `Node.Visits` — the nodes on the path of a key
- `Node.Inserts` — the cases of `insert_node`
- `Node.Inserts.each` — what an insertion keeps
- `Node.Each.exists_inserts`, `Node.Inserts.holds` — an insertion adds its key
-/

namespace Arkiv.Node

open ByteString

/-- A tree that is not empty and whose inner nodes all have the property. -/
inductive Each (Q : Node → Prop) : Node → Prop
  | leaf (sfx : Bytes) : Each Q (leaf sfx)
  | inner {node : Node} (hin : node.isInner = true) (hQ : Q node)
      (hchild : ∀ b c, node.nodeChild b = some c → Each Q c) : Each Q node

/-- The key, without what the path above has consumed, is in the tree. -/
inductive Holds : Node → Bytes → Prop
  | leaf (sfx : Bytes) : Holds (leaf sfx) sfx
  | atEnd {node : Node} (hend : node.nodeHasEnd = true) : Holds node node.nodePrefix
  | under {node c : Node} {b : UInt8} {rest : Bytes} (hc : node.nodeChild b = some c)
      (h : Holds c rest) : Holds node (node.nodePrefix ++ b :: rest)

/-- The descent along a key passes a node with a rest of the key. -/
inductive Visits : Node → Bytes → Node → Bytes → Prop
  | here (node : Node) (key : Bytes) : Visits node key node key
  | under {node c t : Node} {b : UInt8} {rest r : Bytes} (hc : node.nodeChild b = some c)
      (h : Visits c rest t r) : Visits node (node.nodePrefix ++ b :: rest) t r

section Prefixes

theorem commonPrefix_append (p t : Bytes) : commonPrefix p (p ++ t) = p.length := by
  induction p with
  | nil => cases t <;> rfl
  | cons x p ih => simp [commonPrefix, ih]

/-- A key goes through a prefix, or leaves it after `q`. -/
theorem commonPrefix_cases (p k : Bytes) :
    (∃ t, k = p ++ t) ∨ ∃ q b s, p = q ++ b :: s ∧ commonPrefix p k = q.length ∧
      (k = q ∨ ∃ b' t, b' ≠ b ∧ k = q ++ b' :: t) := by
  induction p generalizing k with
  | nil => exact .inl ⟨k, rfl⟩
  | cons x p ih =>
    cases k with
    | nil => exact .inr ⟨[], x, p, rfl, rfl, .inl rfl⟩
    | cons y k =>
      by_cases hxy : x = y
      · subst hxy
        rcases ih k with ⟨t, rfl⟩ | ⟨q, b, s, rfl, hcommon, hk⟩
        · exact .inl ⟨t, rfl⟩
        · refine .inr ⟨x :: q, b, s, rfl, ?_, ?_⟩
          · rw [commonPrefix, if_pos rfl, hcommon, List.length_cons]
          · rcases hk with rfl | ⟨b', t, hne, rfl⟩
            · exact .inl rfl
            · exact .inr ⟨b', t, hne, rfl⟩
      · refine .inr ⟨[], x, p, rfl, ?_, .inr ⟨y, k, Ne.symm hxy, rfl⟩⟩
        rw [commonPrefix, if_neg hxy]
        rfl

/-- Two branches of one prefix differ in their byte or go on alike. -/
theorem branch_inj {p s t : Bytes} {b c : UInt8} (h : p ++ b :: s = p ++ c :: t) :
    b = c ∧ s = t :=
  List.cons.inj (List.append_cancel_left h)

end Prefixes

section Holds

variable {node node' : Node} {key : Bytes} {b : UInt8} {rest : Bytes}

theorem not_holds_empty : ¬Holds empty key := by
  intro h
  cases h with
  | atEnd hend => cases hend
  | under hc => cases hc

theorem holds_leaf {sfx : Bytes} : Holds (leaf sfx) key ↔ key = sfx := by
  constructor
  · intro h
    cases h with
    | leaf => rfl
    | atEnd hend => cases hend
    | under hc => cases hc
  · rintro rfl
    exact .leaf _

theorem holds_inner (hin : node.isInner = true) : Holds node key ↔
    (node.nodeHasEnd = true ∧ key = node.nodePrefix) ∨
      ∃ b rest c, key = node.nodePrefix ++ b :: rest ∧ node.nodeChild b = some c ∧ Holds c rest := by
  constructor
  · intro h
    cases h with
    | leaf => cases hin
    | atEnd hend => exact .inl ⟨hend, rfl⟩
    | under hc h => exact .inr ⟨_, _, _, rfl, hc, h⟩
  · rintro (⟨hend, rfl⟩ | ⟨b, rest, c, rfl, hc, h⟩)
    · exact .atEnd hend
    · exact .under hc h

theorem holds_here (hin : node.isInner = true) :
    Holds node node.nodePrefix ↔ node.nodeHasEnd = true := by
  rw [holds_inner hin]
  constructor
  · rintro (⟨hend, -⟩ | ⟨b, rest, c, heq, -⟩)
    · exact hend
    · simp at heq
  · intro hend
    exact .inl ⟨hend, rfl⟩

theorem holds_branch (hin : node.isInner = true) :
    Holds node (node.nodePrefix ++ b :: rest) ↔ ∃ c, node.nodeChild b = some c ∧ Holds c rest := by
  rw [holds_inner hin]
  constructor
  · rintro (⟨-, heq⟩ | ⟨b', rest', c, heq, hc, h⟩)
    · simp at heq
    · obtain ⟨rfl, rfl⟩ := branch_inj heq
      exact ⟨c, hc, h⟩
  · rintro ⟨c, hc, h⟩
    exact .inr ⟨b, rest, c, rfl, hc, h⟩

/-- Nodes that look alike hold the same keys. -/
theorem Alike.holds (h : Alike node node') (hin : node.isInner = true) :
    Holds node' key ↔ Holds node key := by
  rw [holds_inner hin, holds_inner h.inner, h.nodePrefix, h.nodeHasEnd]
  simp only [h.child]

/-- One changed child changes the keys below it. -/
theorem View.holds_branch {x : Option Node} (hv : View node b x node') :
    Holds node' (node.nodePrefix ++ b :: rest) ↔ ∃ c, x = some c ∧ Holds c rest := by
  rw [← hv.nodePrefix, Node.holds_branch hv.inner, hv.child, if_pos rfl]

theorem View.holds_other {x : Option Node} (hv : View node b x node') (hin : node.isInner = true)
    (hkey : ∀ rest, key ≠ node.nodePrefix ++ b :: rest) : Holds node' key ↔ Holds node key := by
  rw [holds_inner hin, holds_inner hv.inner, hv.nodePrefix, hv.nodeHasEnd]
  refine or_congr Iff.rfl (exists_congr fun b' => exists_congr fun rest => exists_congr fun c =>
    and_congr_right fun heq => ?_)
  have hb : b' ≠ b := by
    rintro rfl
    exact hkey rest heq
  rw [hv.child, if_neg hb]

/-- A node in front of which a prefix and a branch byte are put holds the longer keys. -/
theorem holds_prependInto {p : Bytes} {c : Node} :
    Holds (prependInto p b c) key ↔ ∃ rest, key = p ++ b :: rest ∧ Holds c rest := by
  by_cases hin : c.isInner = true
  · have heq : prependInto p b c = c.setPrefix (p ++ b :: c.nodePrefix) := by
      cases c <;> first | rfl | cases hin
    have hin' : (c.setPrefix (p ++ b :: c.nodePrefix)).isInner = true := by
      rw [isInner_setPrefix]
      exact hin
    rw [heq, holds_inner hin', nodePrefix_setPrefix hin, nodeHasEnd_setPrefix]
    simp only [nodeChild_setPrefix]
    constructor
    · rintro (⟨hend, rfl⟩ | ⟨b', rest, c', rfl, hc, h⟩)
      · exact ⟨_, rfl, .atEnd hend⟩
      · exact ⟨c.nodePrefix ++ b' :: rest, by simp, .under hc h⟩
    · rintro ⟨rest, rfl, h⟩
      rcases (holds_inner hin).mp h with ⟨hend, rfl⟩ | ⟨b', rest', c', rfl, hc, h'⟩
      · exact .inl ⟨hend, rfl⟩
      · exact .inr ⟨b', rest', c', by simp, hc, h'⟩
  · cases c with
    | empty =>
      refine iff_of_false not_holds_empty ?_
      rintro ⟨rest, -, h⟩
      exact not_holds_empty h
    | leaf sfx =>
      rw [prependInto, holds_leaf]
      simp only [holds_leaf]
      constructor
      · intro h
        exact ⟨sfx, h, rfl⟩
      · rintro ⟨rest, h, rfl⟩
        exact h
    | _ => exact absurd rfl hin

theorem Fork.holds {pfx : Bytes} {he : Bool} {kids : List (UInt8 × Node)}
    (h : Fork pfx he kids node) : Holds node key ↔ (he = true ∧ key = pfx) ∨
      ∃ b rest c, key = pfx ++ b :: rest ∧ kids.lookup b = some c ∧ Holds c rest := by
  have hchild := h.child
  obtain ⟨keys, ch, rfl⟩ := h.shape
  rw [holds_inner rfl]
  simp only [hchild]
  rfl

theorem lookup_cons_eq_some {b' : UInt8} {c c' : Node} {kids : List (UInt8 × Node)} :
    ((b, c) :: kids).lookup b' = some c' ↔ (b' = b ∧ c = c') ∨ (b' ≠ b ∧ kids.lookup b' = some c') := by
  rw [List.lookup_cons]
  by_cases hb : b' = b
  · simp [hb]
  · simp [hb, beq_eq_false_iff_ne.mpr hb]

theorem Fork.holds_one {p : Bytes} {c : Node} (h : Fork p true [(b, c)] node) :
    Holds node key ↔ key = p ∨ Holds (prependInto p b c) key := by
  rw [h.holds, holds_prependInto]
  refine or_congr (and_iff_right rfl) ⟨?_, ?_⟩
  · rintro ⟨b', rest, c', rfl, hc, hrest⟩
    rcases lookup_cons_eq_some.mp hc with ⟨rfl, rfl⟩ | ⟨-, hnil⟩
    · exact ⟨rest, rfl, hrest⟩
    · cases hnil
  · rintro ⟨rest, rfl, hrest⟩
    exact ⟨b, rest, c, rfl, lookup_cons_eq_some.mpr (.inl ⟨rfl, rfl⟩), hrest⟩

theorem Fork.holds_two {p : Bytes} {b' : UInt8} {c c' : Node} (hne : b' ≠ b)
    (h : Fork p false [(b', c'), (b, c)] node) :
    Holds node key ↔ Holds (prependInto p b' c') key ∨ Holds (prependInto p b c) key := by
  rw [h.holds, holds_prependInto, holds_prependInto]
  constructor
  · rintro (⟨hfalse, -⟩ | ⟨b₁, rest, c₁, rfl, hc, hrest⟩)
    · cases hfalse
    · rcases lookup_cons_eq_some.mp hc with ⟨rfl, rfl⟩ | ⟨-, hc⟩
      · exact .inl ⟨rest, rfl, hrest⟩
      · rcases lookup_cons_eq_some.mp hc with ⟨rfl, rfl⟩ | ⟨-, hnil⟩
        · exact .inr ⟨rest, rfl, hrest⟩
        · cases hnil
  · rintro (⟨rest, rfl, hrest⟩ | ⟨rest, rfl, hrest⟩)
    · exact .inr ⟨b', rest, c', rfl, lookup_cons_eq_some.mpr (.inl ⟨rfl, rfl⟩), hrest⟩
    · have hlookup : [(b', c'), (b, c)].lookup b = some c := lookup_cons_eq_some.mpr
        (.inr ⟨Ne.symm hne, lookup_cons_eq_some.mpr (.inl ⟨rfl, rfl⟩)⟩)
      exact .inr ⟨b, rest, c, rfl, hlookup, hrest⟩

end Holds

/-- The cases of `insert_node`: node and key before, node and result after. -/
inductive Inserts : Node → Bytes → Node → Bool → Prop
  | fresh (key : Bytes) : Inserts empty key (leaf key) true
  | present (sfx : Bytes) : Inserts (leaf sfx) sfx (leaf sfx) false
  | extend {p rest : Bytes} {b : UInt8} {node' : Node}
      (hfork : Fork p true [(b, leaf rest)] node') : Inserts (leaf p) (p ++ b :: rest) node' true
  | above {p : Bytes} {b : UInt8} {c node' : Node} (hfork : Fork p true [(b, c)] node') :
      Inserts (prependInto p b c) p node' true
  | diverge {p rest : Bytes} {b b' : UInt8} {c node' : Node} (hne : b' ≠ b)
      (hfork : Fork p false [(b', leaf rest), (b, c)] node') :
      Inserts (prependInto p b c) (p ++ b' :: rest) node' true
  | endOld {node : Node} (hin : node.isInner = true) (hend : node.nodeHasEnd = true) :
      Inserts node node.nodePrefix node false
  | endNew {node : Node} (hin : node.isInner = true) (hend : node.nodeHasEnd = false) :
      Inserts node node.nodePrefix (node.setHasEnd true) true
  | under {node c c' : Node} {b : UInt8} {rest : Bytes} {new : Bool}
      (hc : node.nodeChild b = some c) (h : Inserts c rest c' new) :
      Inserts node (node.nodePrefix ++ b :: rest) (setChild b c' node) new
  | add {node g node' : Node} {b : UInt8} {rest : Bytes} (hin : node.isInner = true)
      (hnone : node.nodeChild b = none) (hgrow : node.nodeMaybeGrow = some g)
      (hadd : g.nodeAddChild b (leaf rest) = some node') :
      Inserts node (node.nodePrefix ++ b :: rest) node' true

/-- Where an insertion would add a child under a byte, the node and the byte are in `G`. -/
def AddsWithin (G : Node → UInt8 → Prop) (node : Node) (key : Bytes) : Prop :=
  ∀ t b rest, Visits node key t (t.nodePrefix ++ b :: rest) → t.isInner = true →
    t.nodeChild b = none → G t b

/-- Wherever the insertion adds a child, there is room for it. -/
def InsertsSafely : Node → Bytes → Prop := AddsWithin fun t _ => t.AddsSafely

section Insert

variable {node c : Node} {key rest : Bytes} {b : UInt8}

theorem AddsWithin.child {G : Node → UInt8 → Prop}
    (h : AddsWithin G node (node.nodePrefix ++ b :: rest)) (hc : node.nodeChild b = some c) :
    AddsWithin G c rest :=
  fun t b' rest' hvisit => h t b' rest' (.under hc hvisit)

theorem AddsWithin.here {G : Node → UInt8 → Prop}
    (h : AddsWithin G node (node.nodePrefix ++ b :: rest)) (hin : node.isInner = true)
    (hnone : node.nodeChild b = none) : G node b :=
  h node b rest (.here _ _) hin hnone

theorem exists_insertLeaf (s t : Bytes) :
    ∃ node' new, insertLeaf s t = some (node', new) ∧ Inserts (leaf s) t node' new := by
  unfold insertLeaf
  by_cases hst : s = t
  · rw [if_pos hst, ← hst]
    exact ⟨_, _, rfl, .present s⟩
  rw [if_neg hst]
  dsimp only
  rcases commonPrefix_cases s t with ⟨u, rfl⟩ | ⟨q, b, s', rfl, hcommon, rfl | ⟨b', t', hne, rfl⟩⟩
  · cases u with
    | nil => exact absurd (List.append_nil s).symm hst
    | cons b rest =>
      obtain ⟨node', hadd, hfork⟩ := (n4Empty_fork s true).add (b := b) (c := leaf rest)
        (by decide) rfl rfl
      refine ⟨node', true, ?_, .extend hfork⟩
      rw [commonPrefix_append, List.take_length, List.drop_length, List.drop_left]
      simp only [hadd, Option.map_some]
  · obtain ⟨node', hadd, hfork⟩ := (n4Empty_fork t false).add (b := b) (c := leaf s')
      (by decide) rfl rfl
    refine ⟨node'.setHasEnd true, true, ?_, .above (c := leaf s') (hfork.setHasEnd true)⟩
    rw [hcommon, List.take_left, List.drop_left, List.drop_length]
    simp only [hadd, Option.map_some]
  · obtain ⟨n₁, hadd, hfork⟩ := (n4Empty_fork q false).add (b := b) (c := leaf s')
      (by decide) rfl rfl
    have hlookup : [(b, leaf s')].lookup b' = none := by
      simp [List.lookup_cons, beq_eq_false_iff_ne.mpr hne]
    obtain ⟨node', hadd', hfork'⟩ := hfork.add (c := leaf t') (by simp) hlookup rfl
    refine ⟨node', true, ?_, .diverge (c := leaf s') hne hfork'⟩
    rw [hcommon, List.take_left, List.drop_left, List.drop_left]
    simp only [hadd, Option.bind_some, hadd', Option.map_some]

theorem prependInto_setPrefix (hin : node.isInner = true) {q s : Bytes}
    (hpfx : node.nodePrefix = q ++ b :: s) : prependInto q b (node.setPrefix s) = node := by
  have hset : prependInto q b (node.setPrefix s) = node.setPrefix (q ++ b :: s) := by
    cases node <;> first | rfl | cases hin
  rw [hset, ← hpfx, setPrefix_nodePrefix]

theorem exists_splitPrefix (hin : node.isInner = true) {q s : Bytes}
    (hpfx : node.nodePrefix = q ++ b :: s)
    (hkey : key = q ∨ ∃ b' t, b' ≠ b ∧ key = q ++ b' :: t) :
    ∃ node' new, splitPrefix node q.length key = some (node', new) ∧
      Inserts node key node' new := by
  have hempty : (node.setPrefix s).isEmpty = false :=
    isEmpty_of_isInner (by rw [isInner_setPrefix, hin])
  obtain ⟨n₁, hadd, hfork⟩ := (n4Empty_fork q false).add (b := b) (c := node.setPrefix s)
    (by decide) rfl hempty
  unfold splitPrefix
  rw [hpfx, List.drop_left]
  dsimp only
  rw [List.take_left, hadd]
  rcases hkey with rfl | ⟨b', t, hne, rfl⟩
  · refine ⟨n₁.setHasEnd true, true, ?_, ?_⟩
    · simp only [Option.bind_some, List.drop_length]
    · have hinserts := Inserts.above (hfork.setHasEnd true)
      rwa [prependInto_setPrefix hin hpfx] at hinserts
  · have hlookup : [(b, node.setPrefix s)].lookup b' = none := by
      simp [List.lookup_cons, beq_eq_false_iff_ne.mpr hne]
    obtain ⟨node', hadd', hfork'⟩ := hfork.add (c := leaf t) (by simp) hlookup rfl
    refine ⟨node', true, ?_, ?_⟩
    · simp only [Option.bind_some, List.drop_left, hadd', Option.map_some]
    · have hinserts := Inserts.diverge hne hfork'
      rwa [prependInto_setPrefix hin hpfx] at hinserts

/-- The recursive call of an insertion, by child. -/
def insertChild (node : Node) (b : UInt8) (rest : Bytes) : Option (Option (Node × Bool)) :=
  (node.nodeChild b).map fun c => (insertNode c rest).map fun r => (setChild b r.1 node, r.2)

theorem insertNode_eq (hin : node.isInner = true) (h : node.IndexInRange) (key : Bytes) :
    insertNode node key = insertInner node key (insertChild node) := by
  cases node with
  | empty => cases hin
  | leaf sfx => cases hin
  | n4 pfx he n keys ch =>
    rw [insertNode]
    congr 1
    funext b rest
    unfold insertChild
    cases hfind : findKey n keys b with
    | none => simp [nodeChild, hfind]
    | some i => simp [nodeChild, Node.setChild, hfind]
  | n16 pfx he n keys ch =>
    rw [insertNode]
    congr 1
    funext b rest
    unfold insertChild
    cases hfind : findKey n keys b with
    | none => simp [nodeChild, hfind]
    | some i => simp [nodeChild, Node.setChild, hfind]
  | n48 pfx he n idx ch =>
    rw [insertNode]
    congr 1
    funext b rest
    unfold insertChild
    by_cases hnil : idx b = n48Nil
    · rw [if_pos hnil, nodeChild_n48_of_nil hnil]
      rfl
    · have hlt : (idx b).toNat < 48 := h b hnil
      simp [nodeChild, Node.setChild, hnil, hlt]
  | n256 pfx he n ch =>
    rw [insertNode]
    congr 1
    funext b rest
    unfold insertChild
    by_cases hempty : (ch b).isEmpty = true
    · simp [nodeChild, hempty]
    · simp [nodeChild, Node.setChild, hempty]

theorem insertInner_through (t : Bytes)
    (recurse : UInt8 → Bytes → Option (Option (Node × Bool))) :
    insertInner node (node.nodePrefix ++ t) recurse =
      match t with
      | [] => if node.nodeHasEnd then some (node, false) else some (node.setHasEnd true, true)
      | b :: rest =>
        match recurse b rest with
        | some result => result
        | none =>
          node.nodeMaybeGrow.bind fun grown => (grown.nodeAddChild b (leaf rest)).map (·, true) := by
  unfold insertInner
  dsimp only
  rw [commonPrefix_append, if_neg (lt_irrefl _), List.drop_left]
  cases t <;> rfl

/-- **An insertion succeeds** in a sound tree with room on the path, by one of the cases. -/
theorem Each.exists_inserts (h : Each Sound node) (hsafe : InsertsSafely node key) :
    ∃ node' new, insertNode node key = some (node', new) ∧ Inserts node key node' new := by
  induction h generalizing key with
  | leaf sfx =>
    rw [insertNode]
    exact exists_insertLeaf sfx key
  | @inner node hin hsound hchild ih =>
    rw [insertNode_eq hin hsound.indexInRange]
    rcases commonPrefix_cases node.nodePrefix key with ⟨t, rfl⟩ | ⟨q, b, s, hpfx, hcommon, hkey⟩
    swap
    · unfold insertInner
      dsimp only
      rw [hcommon, hpfx, if_pos (by simp)]
      exact exists_splitPrefix hin hpfx hkey
    rw [insertInner_through]
    cases t with
    | nil =>
      rw [List.append_nil]
      cases hend : node.nodeHasEnd with
      | true => exact ⟨_, _, rfl, .endOld hin hend⟩
      | false => exact ⟨_, _, rfl, .endNew hin hend⟩
    | cons b rest =>
      dsimp only
      unfold insertChild
      cases hc : node.nodeChild b with
      | some c =>
        obtain ⟨c', new, heq, hinserts⟩ := ih b c hc (hsafe.child hc)
        rw [Option.map_some, heq]
        exact ⟨_, _, rfl, .under hc hinserts⟩
      | none =>
        obtain ⟨g, node', hgrow, hadd, -, -⟩ := hsound.add hin (hsafe.here hin hc) hc
          (c := Node.leaf rest) rfl
        refine ⟨node', true, ?_, .add hin hc hgrow hadd⟩
        simp only [Option.map_none, hgrow, Option.bind_some, hadd, Option.map_some]

/-- A property of inner nodes that the changes of an insertion keep, where it adds within `G`. -/
structure InsertClosed (Q : Node → Prop) (G : Node → UInt8 → Prop) : Prop where
  sound : ∀ {node}, Q node → node.Sound
  room : ∀ {node b}, Q node → G node b → node.AddsSafely
  setPrefix : ∀ {node} (pfx : Bytes), Q node → Q (node.setPrefix pfx)
  setHasEnd : ∀ {node}, Q node → Q (node.setHasEnd true)
  setChild : ∀ {node b c₀ c}, Q node → node.nodeChild b = some c₀ → c.isEmpty = false →
    Q (Node.setChild b c node)
  fork : ∀ {pfx he kids node}, Fork pfx he kids node → 0 < kids.length →
    (he = true ∨ 1 < kids.length) → Q node
  add : ∀ {node b c g node'}, Q node → node.isInner = true → G node b → node.nodeChild b = none →
    c.isEmpty = false → node.nodeMaybeGrow = some g → g.nodeAddChild b c = some node' → Q node'

theorem insertClosed_sound : InsertClosed Sound fun t _ => t.AddsSafely where
  sound h := h
  room _ h := h
  setPrefix pfx h := h.setPrefix pfx
  setHasEnd h := h.setHasEnd true
  setChild h hc hx := (h.setChild hc hx).1
  fork h _ _ := h.sound
  add h hin hsafe hnone hx hgrow hadd := by
    obtain ⟨g', node'', hgrow', hadd', hsound, -⟩ := h.add hin hsafe hnone hx
    obtain rfl := Option.some.inj (hgrow'.symm.trans hgrow)
    obtain rfl := Option.some.inj (hadd'.symm.trans hadd)
    exact hsound

variable {Q : Node → Prop} {G : Node → UInt8 → Prop}

theorem Each.isEmpty (h : Each Q node) : node.isEmpty = false := by
  cases h with
  | leaf sfx => rfl
  | inner hin => exact isEmpty_of_isInner hin

theorem Each.inner_iff (hin : node.isInner = true) : Each Q node ↔
    Q node ∧ ∀ b c, node.nodeChild b = some c → Each Q c := by
  constructor
  · intro h
    cases h with
    | leaf sfx => cases hin
    | inner _ hQ hchild => exact ⟨hQ, hchild⟩
  · rintro ⟨hQ, hchild⟩
    exact .inner hin hQ hchild

theorem Each.mono {P : Node → Prop} (hPQ : ∀ t, Q t → P t) (h : Each Q node) : Each P node := by
  induction h with
  | leaf sfx => exact .leaf sfx
  | inner hin hQ _ ih => exact .inner hin (hPQ _ hQ) ih

theorem Each.setPrefix (hset : ∀ {t : Node} (pfx : Bytes), Q t → Q (t.setPrefix pfx))
    (h : Each Q node) (pfx : Bytes) : Each Q (node.setPrefix pfx) := by
  cases h with
  | leaf sfx => exact .leaf sfx
  | inner hin hQ hchild =>
    refine .inner (by rw [isInner_setPrefix, hin]) (hset pfx hQ) fun b c hc => ?_
    rw [nodeChild_setPrefix] at hc
    exact hchild b c hc

/-- A prefix in front of a node, or taken off it, does not matter. -/
theorem Each.prependInto_iff (hset : ∀ {t : Node} (pfx : Bytes), Q t → Q (t.setPrefix pfx))
    {p : Bytes} : Each Q (prependInto p b c) ↔ Each Q c := by
  by_cases hin : c.isInner = true
  · have heq : prependInto p b c = c.setPrefix (p ++ b :: c.nodePrefix) := by
      cases c <;> first | rfl | cases hin
    rw [heq]
    refine ⟨fun h => ?_, fun h => h.setPrefix hset _⟩
    have h' := h.setPrefix hset c.nodePrefix
    rwa [setPrefix_setPrefix, setPrefix_nodePrefix] at h'
  · cases c with
    | empty => exact Iff.rfl
    | leaf sfx => exact ⟨fun _ => .leaf _, fun _ => .leaf _⟩
    | _ => exact absurd rfl hin

theorem Fork.each {pfx : Bytes} {he : Bool} {kids : List (UInt8 × Node)}
    (h : Fork pfx he kids node) (hQ : Q node) (hkids : ∀ kid ∈ kids, Each Q kid.2) :
    Each Q node := by
  have hin : node.isInner = true := by
    obtain ⟨keys, ch, rfl⟩ := h.shape
    rfl
  refine .inner hin hQ fun b c hc => ?_
  rw [h.child] at hc
  obtain ⟨l₁, l₂, rfl, -⟩ := List.lookup_eq_some_iff.mp hc
  exact hkids (b, c) (by simp)

/-- **An insertion keeps** what its changes keep. -/
theorem Inserts.each (hclosed : InsertClosed Q G) {node' : Node} {new : Bool}
    (h : Inserts node key node' new) (hv : node = empty ∨ Each Q node)
    (hsafe : AddsWithin G node key) : Each Q node' := by
  induction h with
  | fresh key => exact .leaf key
  | present sfx => exact .leaf sfx
  | extend hfork =>
    refine hfork.each (hclosed.fork hfork (by simp) (.inl rfl)) fun kid hkid => ?_
    obtain rfl := List.mem_singleton.mp hkid
    exact .leaf _
  -- The fork is sound, so what hangs below it is not empty.
  | @above p b c node' hfork =>
    refine hfork.each (hclosed.fork hfork (by simp) (.inl rfl)) fun kid hkid => ?_
    obtain rfl := List.mem_singleton.mp hkid
    rcases hv with hnil | hv
    · cases c <;> cases hnil
      obtain ⟨keys, ch, rfl⟩ := hfork.shape
      have hchild := hfork.child b
      simp only [List.lookup_cons, beq_self_eq_true] at hchild
      exact absurd (hfork.sound.child_isEmpty hchild) (by simp [Node.isEmpty])
    · exact (Each.prependInto_iff hclosed.setPrefix).mp hv
  | @diverge p rest b b' c node' hne hfork =>
    refine hfork.each (hclosed.fork hfork (by simp) (.inr (by simp))) fun kid hkid => ?_
    rcases List.mem_pair.mp hkid with rfl | rfl
    · exact .leaf _
    · rcases hv with hnil | hv
      · cases c <;> cases hnil
        have hchild := hfork.child b
        simp only [List.lookup_cons, beq_eq_false_iff_ne.mpr (Ne.symm hne), beq_self_eq_true]
          at hchild
        exact absurd (hfork.sound.child_isEmpty hchild) (by simp [Node.isEmpty])
      · exact (Each.prependInto_iff hclosed.setPrefix).mp hv
  | endOld hin hend => exact hv.resolve_left fun hnil => by subst hnil; cases hin
  | @endNew node hin hend =>
    have hv := hv.resolve_left fun hnil => by subst hnil; cases hin
    obtain ⟨hQ, hchild⟩ := (Each.inner_iff hin).mp hv
    refine .inner (by rw [isInner_setHasEnd, hin]) (hclosed.setHasEnd hQ) fun b c hc => ?_
    rw [nodeChild_setHasEnd] at hc
    exact hchild b c hc
  | @under node c c' b rest new hc h ih =>
    have hin := isInner_of_nodeChild hc
    have hv := hv.resolve_left fun hnil => by subst hnil; cases hin
    obtain ⟨hQ, hchild⟩ := (Each.inner_iff hin).mp hv
    have hc' := ih (.inr (hchild b c hc)) (hsafe.child hc)
    have hview := ((hclosed.sound hQ).setChild hc hc'.isEmpty).2
    refine .inner hview.inner (hclosed.setChild hQ hc hc'.isEmpty) fun b' x hx => ?_
    rw [hview.child] at hx
    split at hx
    · rwa [← Option.some.inj hx]
    · exact hchild b' x hx
  | @add node g node' b rest hin hnone hgrow hadd =>
    have hv := hv.resolve_left fun hnil => by subst hnil; cases hin
    obtain ⟨hQ, hchild⟩ := (Each.inner_iff hin).mp hv
    have hG := hsafe.here hin hnone
    obtain ⟨g', node'', hgrow', hadd', -, hview⟩ := (hclosed.sound hQ).add hin (hclosed.room hQ hG)
      hnone (c := Node.leaf rest) rfl
    obtain rfl := Option.some.inj (hgrow'.symm.trans hgrow)
    obtain rfl := Option.some.inj (hadd'.symm.trans hadd)
    refine .inner hview.inner (hclosed.add hQ hin hG hnone rfl hgrow hadd) fun b' x hx => ?_
    rw [hview.child] at hx
    split at hx
    · rw [← Option.some.inj hx]
      exact .leaf rest
    · exact hchild b' x hx

theorem holds_setHasEnd_other (hin : node.isInner = true) {he : Bool} {k : Bytes}
    (hk : k ≠ node.nodePrefix) : Holds (node.setHasEnd he) k ↔ Holds node k := by
  rw [holds_inner hin, holds_inner (by rw [isInner_setHasEnd, hin]), nodePrefix_setHasEnd]
  simp only [nodeChild_setHasEnd, hk, and_false, false_or]

theorem not_holds_prependInto_prefix {p : Bytes} : ¬Holds (prependInto p b c) p := by
  rw [holds_prependInto]
  rintro ⟨rest, heq, -⟩
  simp at heq

theorem not_holds_prependInto_branch {p : Bytes} {b' : UInt8} (hne : b' ≠ b) :
    ¬Holds (prependInto p b c) (p ++ b' :: rest) := by
  rw [holds_prependInto]
  rintro ⟨rest', heq, -⟩
  exact hne (branch_inj heq).1

/-- **An insertion adds its key**, and reports whether it was missing. -/
theorem Inserts.holds {node' : Node} {new : Bool} (h : Inserts node key node' new)
    (hv : node = empty ∨ Each Sound node) (hsafe : InsertsSafely node key) :
    (∀ k, Holds node' k ↔ k = key ∨ Holds node k) ∧ (new = true ↔ ¬Holds node key) := by
  induction h with
  | fresh key =>
    refine ⟨fun k => ?_, iff_of_true rfl not_holds_empty⟩
    rw [holds_leaf, or_iff_left not_holds_empty]
  | present sfx =>
    refine ⟨fun k => ?_, iff_of_false (by simp) (not_not.mpr (.leaf sfx))⟩
    rw [holds_leaf, or_self]
  | @extend p rest b node' hfork =>
    refine ⟨fun k => ?_, iff_of_true rfl ?_⟩
    · rw [hfork.holds_one, prependInto, holds_leaf, holds_leaf, or_comm]
    · rw [holds_leaf]
      simp
  | @above p b c node' hfork =>
    refine ⟨fun k => ?_, iff_of_true rfl not_holds_prependInto_prefix⟩
    rw [hfork.holds_one]
  | @diverge p rest b b' c node' hne hfork =>
    refine ⟨fun k => ?_, iff_of_true rfl (not_holds_prependInto_branch hne)⟩
    rw [hfork.holds_two hne, prependInto, holds_leaf]
  | @endOld node hin hend =>
    have hold := (holds_here hin).mpr hend
    refine ⟨fun k => ⟨.inr, ?_⟩, iff_of_false (by simp) (not_not.mpr hold)⟩
    rintro (rfl | h)
    · exact hold
    · exact h
  | @endNew node hin hend =>
    have hnew : ¬Holds node node.nodePrefix := by
      rw [holds_here hin, hend]
      simp
    refine ⟨fun k => ?_, iff_of_true rfl hnew⟩
    by_cases hk : k = node.nodePrefix
    · have hset : Holds (node.setHasEnd true) (node.setHasEnd true).nodePrefix :=
        .atEnd (nodeHasEnd_setHasEnd hin)
      rw [nodePrefix_setHasEnd] at hset
      rw [hk]
      exact iff_of_true hset (.inl rfl)
    · rw [holds_setHasEnd_other hin hk, or_iff_right hk]
  -- Only the strings below the byte of the child change.
  | @under node c c' b rest new hc h ih =>
    have hin := isInner_of_nodeChild hc
    have hv := hv.resolve_left fun hnil => by subst hnil; cases hin
    obtain ⟨hsound, hchild⟩ := (Each.inner_iff hin).mp hv
    have hc' := h.each insertClosed_sound (.inr (hchild b c hc)) (hsafe.child hc)
    obtain ⟨hholds, hnew⟩ := ih (.inr (hchild b c hc)) (hsafe.child hc)
    have hview := (hsound.setChild hc hc'.isEmpty).2
    refine ⟨fun k => ?_, ?_⟩
    · by_cases hk : ∃ r, k = node.nodePrefix ++ b :: r
      · obtain ⟨r, rfl⟩ := hk
        rw [hview.holds_branch, holds_branch hin, hc]
        simp only [Option.some.injEq, exists_eq_left', hholds, List.append_cancel_left_eq,
          List.cons.injEq, true_and]
      · rw [hview.holds_other hin fun r hr => hk ⟨r, hr⟩, or_iff_right fun heq => hk ⟨rest, heq⟩]
    · rw [hnew, holds_branch hin, hc]
      simp only [Option.some.injEq, exists_eq_left']
  -- The byte had no child, so the new leaf is all there is below it.
  | @add node g node' b rest hin hnone hgrow hadd =>
    have hv := hv.resolve_left fun hnil => by subst hnil; cases hin
    obtain ⟨hsound, -⟩ := (Each.inner_iff hin).mp hv
    obtain ⟨g', node'', hgrow', hadd', -, hview⟩ := hsound.add hin (hsafe.here hin hnone) hnone
      (c := Node.leaf rest) rfl
    obtain rfl := Option.some.inj (hgrow'.symm.trans hgrow)
    obtain rfl := Option.some.inj (hadd'.symm.trans hadd)
    have hnew : ¬Holds node (node.nodePrefix ++ b :: rest) := by
      rw [holds_branch hin, hnone]
      simp
    refine ⟨fun k => ?_, iff_of_true rfl hnew⟩
    by_cases hk : ∃ r, k = node.nodePrefix ++ b :: r
    · obtain ⟨r, rfl⟩ := hk
      rw [hview.holds_branch, holds_branch hin, hnone]
      simp only [Option.some.injEq, exists_eq_left', holds_leaf, List.append_cancel_left_eq,
        List.cons.injEq, true_and, reduceCtorEq, false_and, exists_false, or_false]
    · rw [hview.holds_other hin fun r hr => hk ⟨r, hr⟩, or_iff_right fun heq => hk ⟨rest, heq⟩]

end Insert

end Arkiv.Node
