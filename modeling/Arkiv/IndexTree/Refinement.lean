import Mathlib
import Arkiv.IndexTree.Enumeration
import Arkiv.Lib.Run
import Arkiv.Model.Query

/-!
# The tree is a set

Runs of insertions and removals on a tree next to the same runs on a finite set
of byte strings. They agree as long as no insertion loses keys: a full 48-node
with a child under `0xFF` loses that child when it grows.

## Main definitions

- `SetOp` — an insertion or a removal, on trees and on sets
- `IndexTree.IsSet` — the tree after a run is the set after it
- `SetOp.Lossless` — the insertions that lose nothing
- `isSet_run` — the tree is the set in every run without loss
-/

namespace Arkiv

open ByteString

/-- A call that changes a set of byte strings. -/
inductive SetOp where
  | insert (key : Bytes)
  | remove (key : Bytes)
deriving DecidableEq

/-- The call on a set: what is left and what is answered. -/
def SetOp.onSet (s : Finset Bytes) : SetOp → Finset Bytes × Bool
  | .insert key => (Insert.insert key s, decide (key ∉ s))
  | .remove key => (s.erase key, decide (key ∈ s))

/-- The call on a tree. -/
def SetOp.onTree (t : IndexTree) : SetOp → Option (IndexTree × Bool)
  | .insert key => t.insert key
  | .remove key => t.remove key

/-- The set after a run, with the answers in order. -/
def setRun (ops : List SetOp) : Finset Bytes × List Bool :=
  ops.foldl (fun r op => ((op.onSet r.1).1, r.2 ++ [(op.onSet r.1).2])) (∅, [])

/-- The tree after a run, with the answers in order. -/
def treeRun (ops : List SetOp) : Option (IndexTree × List Bool) :=
  ops.foldl (fun r op => r.bind fun r => (op.onTree r.1).map fun x => (x.1, r.2 ++ [x.2]))
    (some (IndexTree.new, []))

theorem setRun_snoc (ops : List SetOp) (op : SetOp) : setRun (ops ++ [op]) =
    ((op.onSet (setRun ops).1).1, (setRun ops).2 ++ [(op.onSet (setRun ops).1).2]) := by
  rw [setRun, List.foldl_append, List.foldl_cons, List.foldl_nil, ← setRun]

theorem treeRun_snoc (ops : List SetOp) (op : SetOp) : treeRun (ops ++ [op]) =
    (treeRun ops).bind fun r => (op.onTree r.1).map fun x => (x.1, r.2 ++ [x.2]) := by
  rw [treeRun, List.foldl_append, List.foldl_cons, List.foldl_nil, ← treeRun]

namespace IndexTree

/-- The tree with its answers is the set with its answers: counter, emptiness, keys and what the
    iterators select. -/
structure IsSet (t : IndexTree) (answers : List Bool) (s : Finset Bytes) (expected : List Bool) :
    Prop where
  answers : answers = expected
  len : t.len = s.card
  isEmpty : t.isEmpty = true ↔ s = ∅
  keys : ∃ l, t.keys = some l ∧ l.Nodup ∧ ∀ k, k ∈ l ↔ k ∈ s
  filtered : ∀ pred, ∃ l, t.filtered pred = some l ∧ l.Nodup ∧ ∀ k, k ∈ l ↔ k ∈ s ∧ pred k = true

/-- The root is empty or a sound tree, and the counter counts its keys. -/
structure Represents (t : IndexTree) (s : Finset Bytes) : Prop where
  root : t.root = .empty ∨ t.root.Each Node.Sound
  holds : ∀ k, t.root.Holds k ↔ k ∈ s
  len : t.len = s.card

theorem represents_new : Represents new ∅ where
  root := .inl rfl
  holds _ := iff_of_false Node.not_holds_empty (by simp)
  len := rfl

variable {t : IndexTree} {s : Finset Bytes}

/-- The enumeration of a sound root that holds a set. -/
theorem exists_keys (hroot : t.root = .empty ∨ t.root.Each Node.Sound)
    (hholds : ∀ k, t.root.Holds k ↔ k ∈ s) :
    ∃ l, t.keys = some l ∧ l.Nodup ∧ ∀ k, k ∈ l ↔ k ∈ s := by
  rcases hroot with hroot | hroot
  · refine ⟨[], by rw [IndexTree.keys, hroot]; rfl, by simp, fun k => ?_⟩
    rw [← hholds, hroot]
    exact iff_of_false (by simp) Node.not_holds_empty
  · obtain ⟨l, hl, hnodup, hmem⟩ := hroot.collectAll []
    refine ⟨l, hl, hnodup, fun k => ?_⟩
    rw [hmem, ← hholds]
    simp

theorem Represents.keys (h : Represents t s) :
    ∃ l, t.keys = some l ∧ l.Nodup ∧ ∀ k, k ∈ l ↔ k ∈ s :=
  exists_keys h.root h.holds

theorem Represents.isSet (h : Represents t s) (answers : List Bool) :
    IsSet t answers s answers := by
  obtain ⟨l, hl, hnodup, hmem⟩ := h.keys
  refine ⟨rfl, h.len, ?_, ⟨l, hl, hnodup, hmem⟩, fun pred => ?_⟩
  · rw [IndexTree.isEmpty, h.len, beq_iff_eq, Finset.card_eq_zero]
  · refine ⟨l.filter pred, by rw [IndexTree.filtered, hl]; rfl, hnodup.filter _, fun k => ?_⟩
    rw [List.mem_filter, hmem]

end IndexTree

/-- A call that loses nothing: a child is only added where there is room for it, and the counter of
    keys does not overflow. -/
def SetOp.Lossless (t : IndexTree) : SetOp → Prop
  | .insert key => t.root.InsertsSafely key ∧ t.len + 1 < 2 ^ 64
  | .remove _ => True

/-- A run in which every call, on the tree that the calls before it leave, is in `G`. -/
def RunsWithin (G : IndexTree → SetOp → Prop) (ops : List SetOp) : Prop :=
  ∀ before op after, ops = before ++ op :: after → ∀ r, treeRun before = some r → G r.1 op

theorem RunsWithin.init {G : IndexTree → SetOp → Prop} {ops : List SetOp} {op : SetOp}
    (h : RunsWithin G (ops ++ [op])) : RunsWithin G ops := by
  intro before op' after heq
  exact h before op' (after ++ [op]) (by rw [heq, List.append_assoc, List.cons_append])

theorem RunsWithin.last {G : IndexTree → SetOp → Prop} {ops : List SetOp} {op : SetOp}
    (h : RunsWithin G (ops ++ [op])) {r : IndexTree × List Bool} (hr : treeRun ops = some r) :
    G r.1 op :=
  h ops op [] rfl r hr

theorem RunsWithin.mono {G H : IndexTree → SetOp → Prop} (hGH : ∀ t op, G t op → H t op)
    {ops : List SetOp} (h : RunsWithin G ops) : RunsWithin H ops :=
  fun before op after heq r hr => hGH _ _ (h before op after heq r hr)

namespace IndexTree

variable {t : IndexTree} {s : Finset Bytes}

/-- A sound root answers to an insertion. -/
theorem exists_inserts {root : Node} (h : root = .empty ∨ root.Each Node.Sound) {key : Bytes}
    (hsafe : root.InsertsSafely key) :
    ∃ root' new, root.insertNode key = some (root', new) ∧ root.Inserts key root' new := by
  rcases h with rfl | h
  · exact ⟨_, _, rfl, .fresh key⟩
  · exact h.exists_inserts hsafe

/-- **An insertion into a root** that holds a set. -/
theorem exists_insertNode {root : Node} (h : root = .empty ∨ root.Each Node.Sound)
    (hholds : ∀ k, root.Holds k ↔ k ∈ s) {key : Bytes} (hsafe : root.InsertsSafely key) :
    ∃ root', root.insertNode key = some (root', decide (key ∉ s)) ∧
      root.Inserts key root' (decide (key ∉ s)) ∧ ∀ k, root'.Holds k ↔ k ∈ Insert.insert key s := by
  obtain ⟨root', new, heq, hinserts⟩ := exists_inserts h hsafe
  obtain ⟨hholds', hnew⟩ := hinserts.holds h hsafe
  have hanswer : new = decide (key ∉ s) := by
    rw [hholds] at hnew
    cases new with
    | true => exact (decide_eq_true (hnew.mp rfl)).symm
    | false => exact (decide_eq_false fun hno => absurd (hnew.mpr hno) (by simp)).symm
  rw [hanswer] at heq hinserts
  refine ⟨root', heq, hinserts, fun k => ?_⟩
  rw [hholds', hholds, Finset.mem_insert]

/-- **A removal from a root** that holds a set. -/
theorem exists_removeNode {root : Node} (h : root = .empty ∨ root.Each Node.Sound)
    (hholds : ∀ k, root.Holds k ↔ k ∈ s) (key : Bytes) :
    ∃ root', root.removeNode key = some (root', decide (key ∈ s)) ∧
      (root = .empty ∧ root' = root ∨ root.Removes key root' (decide (key ∈ s))) ∧
      ∀ k, root'.Holds k ↔ k ∈ s.erase key := by
  rcases h with rfl | h
  · have hmem : key ∉ s := by
      rw [← hholds]
      exact Node.not_holds_empty
    rw [decide_eq_false hmem, Finset.erase_eq_of_notMem hmem]
    exact ⟨.empty, rfl, .inl ⟨rfl, rfl⟩, hholds⟩
  · obtain ⟨root', gone, heq, hremoves⟩ := h.exists_removes key
    obtain ⟨hholds', hgone⟩ := hremoves.holds h
    have hanswer : gone = decide (key ∈ s) := by
      rw [hholds] at hgone
      cases gone with
      | true => exact (decide_eq_true (hgone.mp rfl)).symm
      | false => exact (decide_eq_false fun hmem => absurd (hgone.mpr hmem) (by simp)).symm
    rw [hanswer] at heq hremoves
    refine ⟨root', heq, .inr hremoves, fun k => ?_⟩
    rw [hholds', hholds, Finset.mem_erase]

theorem Represents.insert (h : Represents t s) {key : Bytes} (hsafe : t.root.InsertsSafely key)
    (hlen : t.len + 1 < 2 ^ 64) :
    ∃ t', t.insert key = some (t', decide (key ∉ s)) ∧ Represents t' (Insert.insert key s) ∧
      t.root.Inserts key t'.root (decide (key ∉ s)) := by
  obtain ⟨root', heq, hinserts, hholds⟩ := exists_insertNode h.root h.holds hsafe
  have hroot := hinserts.each Node.insertClosed_sound h.root hsafe
  unfold IndexTree.insert
  rw [heq, Option.map_some]
  dsimp only
  by_cases hmem : key ∈ s
  · rw [decide_eq_false (not_not.mpr hmem)] at hinserts ⊢
    refine ⟨⟨root', t.len⟩, rfl, ⟨.inr hroot, hholds, ?_⟩, hinserts⟩
    rw [Finset.insert_eq_of_mem hmem]
    exact h.len
  · rw [decide_eq_true hmem] at hinserts ⊢
    refine ⟨⟨root', (t.len + 1) % 2 ^ 64⟩, rfl, ⟨.inr hroot, hholds, ?_⟩, hinserts⟩
    rw [Finset.card_insert_of_notMem hmem, ← h.len]
    exact Nat.mod_eq_of_lt hlen

theorem Represents.remove (h : Represents t s) (key : Bytes) (hlen : t.len < 2 ^ 64) :
    ∃ t', t.remove key = some (t', decide (key ∈ s)) ∧ Represents t' (s.erase key) ∧
      (t.root = .empty ∧ t' = t ∨ t.root.Removes key t'.root (decide (key ∈ s))) := by
  obtain ⟨root', heq, hcase, hholds⟩ := exists_removeNode h.root h.holds key
  have hroot : root' = .empty ∨ root'.Each Node.Sound := by
    rcases hcase with ⟨hnil, rfl⟩ | hremoves
    · exact .inl hnil
    · rcases h.root with hnil | hroot
      · rw [hnil, Node.removeNode, Option.some.injEq, Prod.mk.injEq] at heq
        exact .inl heq.1.symm
      · exact hremoves.each Node.removeClosed_sound hroot fun _ _ _ _ _ _ _ => trivial
  unfold IndexTree.remove
  rw [heq, Option.map_some]
  dsimp only
  by_cases hmem : key ∈ s
  · have hpos : 0 < s.card := Finset.card_pos.mpr ⟨key, hmem⟩
    have hnonempty : t.root ≠ .empty := by
      intro hnil
      have hkey := (h.holds key).mpr hmem
      rw [hnil] at hkey
      exact Node.not_holds_empty hkey
    have hremoves := hcase.resolve_left fun hnil => hnonempty hnil.1
    rw [decide_eq_true hmem] at hremoves ⊢
    refine ⟨⟨root', (t.len + 2 ^ 64 - 1) % 2 ^ 64⟩, rfl, ⟨hroot, hholds, ?_⟩, .inr hremoves⟩
    rw [Finset.card_erase_of_mem hmem, ← h.len]
    have hlen' := h.len
    show (t.len + 2 ^ 64 - 1) % 2 ^ 64 = t.len - 1
    omega
  · rw [decide_eq_false hmem] at hcase ⊢
    have hsame : root' = t.root := by
      rcases hcase with ⟨-, hsame⟩ | hremoves
      · exact hsame
      · exact hremoves.eq_of_false.1
    subst hsame
    refine ⟨t, rfl, ?_, hcase.imp_left fun h' => ⟨h'.1, rfl⟩⟩
    rw [Finset.erase_eq_of_notMem hmem]
    exact h

/-- **Run**: the tree represents the set, and answers like it. -/
theorem represents_run {ops : List SetOp} (hrun : RunsWithin SetOp.Lossless ops) :
    ∃ t, treeRun ops = some (t, (setRun ops).2) ∧ Represents t (setRun ops).1 ∧ t.len < 2 ^ 64 := by
  induction ops using List.reverseRecOn with
  | nil => exact ⟨new, rfl, represents_new, by decide⟩
  | append_singleton ops op ih =>
    obtain ⟨t, ht, hrep, hlen⟩ := ih hrun.init
    have hlossless := hrun.last ht
    rw [setRun_snoc, treeRun_snoc, ht, Option.bind_some]
    cases op with
    | insert key =>
      obtain ⟨t', hinsert, hrep', -⟩ := hrep.insert hlossless.1 hlossless.2
      refine ⟨t', by rw [SetOp.onTree, hinsert]; rfl, hrep', ?_⟩
      have hcard := Finset.card_insert_le key (setRun ops).1
      have hl := hrep.len
      have hl' := hrep'.len
      have h64 : t.len + 1 < 2 ^ 64 := hlossless.2
      omega
    | remove key =>
      obtain ⟨t', hremove, hrep', -⟩ := hrep.remove key hlen
      refine ⟨t', by rw [SetOp.onTree, hremove]; rfl, hrep', ?_⟩
      have hcard := Finset.card_erase_le (s := (setRun ops).1) (a := key)
      have hl := hrep.len
      have hl' := hrep'.len
      omega

end IndexTree

/-- **The tree is a set** in every run whose insertions lose nothing. -/
theorem isSet_run {ops : List SetOp} (hrun : RunsWithin SetOp.Lossless ops) :
    ∃ t answers, treeRun ops = some (t, answers) ∧
      t.IsSet answers (setRun ops).1 (setRun ops).2 := by
  obtain ⟨t, ht, hrep, -⟩ := IndexTree.represents_run hrun
  exact ⟨t, _, ht, hrep.isSet _⟩

/-- Two keys that split a leaf, and a removal that merges them again. -/
def splitOps : List SetOp := [.insert [1, 2], .insert [1, 3], .remove [1, 2]]

/-- Three keys below two inner nodes, and a removal that merges these. -/
def mergeOps : List SetOp :=
  [.insert [1, 2, 5], .insert [1, 2, 6], .insert [1, 3], .remove [1, 3]]

theorem exists_mergeRun : ∃ t answers, treeRun mergeOps = some (t, answers) ∧
    t.root.isInner = true ∧ t.root.nodePrefix = [1, 2] := by
  have hrun : (treeRun mergeOps).any (fun r => r.1.root.isInner && r.1.root.nodePrefix == [1, 2]) =
      true := by decide +kernel
  obtain ⟨r, hr, hshape⟩ := (Option.any_eq_true _ _).mp hrun
  rw [Bool.and_eq_true, beq_iff_eq] at hshape
  exact ⟨r.1, r.2, hr, hshape⟩

theorem Node.addsWithin_of_not_inner {G : Node → UInt8 → Prop} {node : Node} {key : Bytes}
    (h : node.isInner = false) : node.AddsWithin G key := by
  intro t b rest hvisit hin
  cases hvisit with
  | here => rw [h] at hin; cases hin
  | under hc => rw [Node.isInner_of_nodeChild hc] at h; cases h

/-- What holds of each call of the run holds in the run. -/
theorem runsWithin_splitOps {G : IndexTree → SetOp → Prop}
    (h₀ : G IndexTree.new (.insert [1, 2])) (h₁ : G ⟨.leaf [1, 2], 1⟩ (.insert [1, 3]))
    (h₂ : ∀ r, treeRun [.insert [1, 2], .insert [1, 3]] = some r → G r.1 (.remove [1, 2])) :
    RunsWithin G splitOps := by
  intro before op after heq r hr
  rcases before with _ | ⟨op₀, _ | ⟨op₁, _ | ⟨op₂, before⟩⟩⟩
  · obtain ⟨rfl, -⟩ := List.cons.inj heq
    obtain rfl := Option.some.inj hr
    exact h₀
  · simp only [splitOps, List.cons_append, List.nil_append, List.cons.injEq] at heq
    obtain ⟨rfl, rfl, -⟩ := heq
    obtain rfl := Option.some.inj hr
    exact h₁
  · simp only [splitOps, List.cons_append, List.nil_append, List.cons.injEq] at heq
    obtain ⟨rfl, rfl, rfl, -⟩ := heq
    exact h₂ r hr
  · simp [splitOps] at heq

theorem isSet_splitOps : ∃ t answers, treeRun splitOps = some (t, answers) ∧
    t.IsSet answers (setRun splitOps).1 (setRun splitOps).2 := by
  refine isSet_run (runsWithin_splitOps ?_ ?_ fun _ _ => trivial)
  · exact ⟨Node.addsWithin_of_not_inner rfl, by decide⟩
  · exact ⟨Node.addsWithin_of_not_inner rfl, by decide⟩

/-- A 48-node fills up with a child under `0xFF` and grows. -/
def lossyOps : List SetOp :=
  (.insert [0xFF]) :: (List.range 48).map fun i => .insert [UInt8.ofNat i]

/-- The tree of the run enumerates 48 of the 49 keys: the one under `0xFF` is lost. -/
theorem not_isSet_lossyOps : ¬∃ t answers, treeRun lossyOps = some (t, answers) ∧
    t.IsSet answers (setRun lossyOps).1 (setRun lossyOps).2 := by
  rintro ⟨t, answers, ht, hset⟩
  obtain ⟨l, hl, -, hmem⟩ := hset.keys
  have hlost : ((treeRun lossyOps).bind fun r => r.1.keys).all fun l => !l.contains [0xFF] := by
    decide +kernel
  have hkept : ([0xFF] : Bytes) ∈ (setRun lossyOps).1 := by decide +kernel
  rw [ht, Option.bind_some, hl, Option.all_some] at hlost
  simp only [Bool.not_eq_true', List.contains_eq_mem, decide_eq_false_iff_not] at hlost
  exact hlost ((hmem _).mpr hkept)

end Arkiv
