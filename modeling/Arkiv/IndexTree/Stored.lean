import Mathlib
import Arkiv.IndexTree.RoundTrip

/-!
# The tree between two calls

An index account holds the bytes of a tree and nothing else. Every call reads
them, changes the tree and writes it back; the account is cleared when the last
key goes. As long as the calls keep the slots, nothing is lost on the way, and
the account behaves like a set over whole runs.

## Main definitions

- `SetOp.onCode` — a call on the code of an index account
- `Node.Same.visits` — descents in trees that cannot be told apart
- `StoredSet` — the code stands for a set
- `stored_run` — it does after every run of calls that keep the slots
-/

namespace Arkiv

open ByteString

namespace IndexTree

/-- The tree that an index account holds. -/
def ofCode (code : Bytes) : Except TreeError IndexTree :=
  if code = [] then .ok new else fromBytes code

theorem ofCode_of_fromBytes {code : Bytes} {t : IndexTree} (h : fromBytes code = .ok t) :
    code ≠ [] ∧ ofCode code = .ok t := by
  have hne : code ≠ [] := by
    rintro rfl
    cases h
  exact ⟨hne, (if_neg hne).trans h⟩

end IndexTree

/-- What a call writes: the tree, or nothing when it took the last key. -/
def SetOp.written (t : IndexTree) : SetOp → Option Bytes
  | .insert _ => t.toBytes
  | .remove _ => if t.isEmpty then some [] else t.toBytes

/-- The call on an index account: read, change, write. -/
def SetOp.onCode (code : Bytes) (op : SetOp) : Option (Bytes × Bool) :=
  (IndexTree.ofCode code).toOption.bind fun t =>
    (op.onTree t).bind fun r => (op.written r.1).map fun bytes => (bytes, r.2)

/-- The account after a run, with the answers in order. -/
def codeRun (ops : List SetOp) : Option (Bytes × List Bool) :=
  ops.foldl (fun r op => r.bind fun r => (op.onCode r.1).map fun x => (x.1, r.2 ++ [x.2]))
    (some ([], []))

theorem codeRun_snoc (ops : List SetOp) (op : SetOp) : codeRun (ops ++ [op]) =
    (codeRun ops).bind fun r => (op.onCode r.1).map fun x => (x.1, r.2 ++ [x.2]) := by
  rw [codeRun, List.foldl_append, List.foldl_cons, List.foldl_nil, ← codeRun]

/-- A run in which every call is in `G` on the tree that it reads. -/
def ReadsWithin (G : IndexTree → SetOp → Prop) (ops : List SetOp) : Prop :=
  ∀ before op after, ops = before ++ op :: after → ∀ r, codeRun before = some r →
    ∀ t, IndexTree.ofCode r.1 = .ok t → G t op

theorem ReadsWithin.init {G : IndexTree → SetOp → Prop} {ops : List SetOp} {op : SetOp}
    (h : ReadsWithin G (ops ++ [op])) : ReadsWithin G ops := by
  intro before op' after heq
  exact h before op' (after ++ [op]) (by rw [heq, List.append_assoc, List.cons_append])

namespace Node

variable {x y c t : Node} {b : UInt8} {key r : Bytes}

theorem Same.symm (h : Same x y) : Same y x := by
  induction h with
  | empty => exact .empty
  | leaf sfx => exact .leaf sfx
  | n4 hkeys _ ih => exact .n4 (fun i hi => (hkeys i hi).symm) ih
  | n16 hkeys _ ih => exact .n16 (fun i hi => (hkeys i hi).symm) ih
  | n48 _ ih => exact .n48 ih
  | n256 _ ih => exact .n256 ih

theorem Same.isInner (h : Same x y) : x.isInner = y.isInner := by
  cases h <;> rfl

theorem Same.nodeChild (h : Same x y) (b : UInt8) :
    Option.Rel Same (x.nodeChild b) (y.nodeChild b) := by
  cases h with
  | empty => exact .none
  | leaf sfx => exact .none
  | @n4 pfx he n keys keys' ch ch' hkeys hch =>
    simp only [Node.nodeChild]
    rw [findKey_congr hkeys]
    cases hfind : findKey n keys' b with
    | none => exact .none
    | some i => exact .some (hch i (lt_of_findKey hfind))
  | @n16 pfx he n keys keys' ch ch' hkeys hch =>
    simp only [Node.nodeChild]
    rw [findKey_congr hkeys]
    cases hfind : findKey n keys' b with
    | none => exact .none
    | some i => exact .some (hch i (lt_of_findKey hfind))
  | n48 hch =>
    simp only [Node.nodeChild]
    split
    · exact .some (hch _)
    · exact .none
  | n256 hch =>
    simp only [Node.nodeChild]
    rw [(hch b).isEmpty]
    exact Related.ite .none (.some (hch b))

theorem Same.exists_child (h : Same x y) (hc : x.nodeChild b = some c) :
    ∃ c', y.nodeChild b = some c' ∧ Same c c' := by
  have hrel := h.nodeChild b
  rw [hc] at hrel
  generalize y.nodeChild b = o at hrel ⊢
  cases hrel with
  | some hsame => exact ⟨_, rfl, hsame⟩

theorem Same.nodeChild_eq_none (h : Same x y) (hc : x.nodeChild b = none) :
    y.nodeChild b = none := by
  have hrel := h.nodeChild b
  rw [hc] at hrel
  generalize y.nodeChild b = o at hrel ⊢
  cases hrel
  rfl

/-- Trees that cannot be told apart hold the same keys. -/
theorem Same.holds (h : Same x y) (hx : Holds x key) : Holds y key := by
  induction hx generalizing y with
  | leaf sfx =>
    cases h
    exact .leaf sfx
  | atEnd hend =>
    rw [h.nodePrefix]
    exact .atEnd (h.nodeHasEnd.symm.trans hend)
  | under hc _ ih =>
    obtain ⟨c', hc', hsame⟩ := h.exists_child hc
    rw [h.nodePrefix]
    exact .under hc' (ih hsame)

theorem Same.holds_iff (h : Same x y) : Holds x key ↔ Holds y key :=
  ⟨h.holds, h.symm.holds⟩

/-- A descent in one tree is a descent in the other. -/
theorem Same.visits (h : Same x y) (hx : Visits x key t r) :
    ∃ t', Visits y key t' r ∧ Same t t' := by
  induction hx generalizing y with
  | here node key => exact ⟨y, .here y key, h⟩
  | under hc _ ih =>
    obtain ⟨c', hc', hsame⟩ := h.exists_child hc
    obtain ⟨t', hvisit, ht⟩ := ih hsame
    rw [h.nodePrefix]
    exact ⟨t', .under hc' hvisit, ht⟩

variable {G : Node → UInt8 → Prop}

theorem Same.addsWithin (hG : ∀ {t t' : Node} {b : UInt8}, Same t t' → G t' b → G t b)
    (h : Same x y) (hy : y.AddsWithin G key) : x.AddsWithin G key := by
  intro t b rest hvisit hin hnone
  obtain ⟨t', hvisit', ht⟩ := h.visits hvisit
  rw [ht.nodePrefix] at hvisit'
  exact hG ht (hy t' b rest hvisit' (ht.isInner ▸ hin) (ht.nodeChild_eq_none hnone))

theorem Same.dropsWithin (hG : ∀ {t t' : Node} {b : UInt8}, Same t t' → G t' b → G t b)
    (h : Same x y) (hy : y.DropsWithin G key) : x.DropsWithin G key := by
  intro t b rest c hvisit hc hlast
  obtain ⟨t', hvisit', ht⟩ := h.visits hvisit
  obtain ⟨c', hc', hsame⟩ := ht.exists_child hc
  rw [ht.nodePrefix] at hvisit'
  exact hG ht (hy t' b rest c' hvisit' hc' fun k => hsame.holds_iff.symm.trans (hlast k))

theorem Same.growsSafely (h : Same x y) (hy : y.GrowsSafely) : x.GrowsSafely := by
  cases h <;> exact hy

theorem Same.freesLast (h : Same x y) (hy : y.FreesLast b) : x.FreesLast b := by
  cases h <;> exact hy

end Node

/-- What a call does to the slots is the same on trees that cannot be told apart. -/
theorem SetOp.KeepsSlots.of_same {t u : IndexTree} {op : SetOp} (h : op.KeepsSlots u)
    (hsame : IndexTree.Same t u) : op.KeepsSlots t := by
  cases op with
  | insert key =>
    refine ⟨hsame.root.addsWithin (fun ht => ht.growsSafely) h.1, ?_⟩
    rw [hsame.len]
    exact h.2
  | remove key => exact hsame.root.dropsWithin (fun ht => ht.freesLast) h

namespace IndexTree

variable {P : Node → Prop} {A D : Node → UInt8 → Prop} {t u : IndexTree} {s : Finset Bytes}
  {l : List Bytes}

/-- An allowed call answers like the set and keeps what the invariant says. -/
theorem Keeps.call (hkept : Node.Kept P A D) (h : Keeps P t s) {op : SetOp}
    (hallowed : op.Allowed A D t) :
    ∃ t', op.onTree t = some (t', (op.onSet s).2) ∧ Keeps P t' (op.onSet s).1 := by
  cases op with
  | insert key => exact h.insert hkept hallowed
  | remove key => exact h.remove hkept hallowed

/-- Trees that cannot be told apart enumerate alike. -/
theorem Same.enumerates (h : Same t u) (ht : t.Enumerates l) : u.Enumerates l := by
  have hfiltered : ∀ p, u.filtered p = t.filtered p := by
    intro p
    rw [filtered, filtered, h.keys]
  constructor
  · rw [← h.keys]
    exact ht.keys
  · exact ht.ascending
  · exact ht.nodup
  · exact ht.shorterFirst
  · intro lo
    rw [iterGt, hfiltered]
    exact ht.gt lo
  · intro lo
    rw [iterGte, hfiltered]
    exact ht.gte lo
  · intro hi
    rw [iterLt, hfiltered]
    exact ht.lt hi
  · intro hi
    rw [iterLte, hfiltered]
    exact ht.lte hi
  · intro p
    rw [iterPrefix, hfiltered]
    exact ht.pfx p

end IndexTree

/-- The code of an index account stands for the set: it is read as a tree that cannot be told from
    one that keeps the set. -/
structure StoredSet (code : Bytes) (s : Finset Bytes) : Prop where
  exists_tree : ∃ t u, IndexTree.ofCode code = .ok u ∧ IndexTree.Same t u ∧
    IndexTree.Keeps Node.Packed t s ∧ t.root.Ordered ∧ t.root.Reaches 255 0
  card : s.card < 2 ^ 32
  vacant : code = [] ↔ s = ∅

theorem storedSet_nil : StoredSet [] ∅ where
  exists_tree := ⟨.new, .new, rfl, ⟨.empty, rfl⟩, IndexTree.keeps_new, .empty, Node.reaches_empty⟩
  card := by decide
  vacant := iff_of_true rfl rfl

/-- A tree that keeps a set that is not empty, written. -/
theorem storedSet_of_keeps {t : IndexTree} {s : Finset Bytes}
    (h : IndexTree.Keeps Node.Packed t s) (hord : t.root.Ordered) (hreach : t.root.Reaches 255 0)
    (hcard : s.card < 2 ^ 32) (hne : s ≠ ∅) :
    ∃ code, t.toBytes = some code ∧ StoredSet code s := by
  have hroot : t.root.Reads := by
    obtain hnil | hroot := h.root
    · rw [hnil]
      exact Node.reads_empty
    · exact hroot.reads hreach le_rfl
  have hlen : t.len < 2 ^ 32 := by
    rw [h.len]
    omega
  obtain ⟨code, u, hto, hfrom, hsame⟩ := IndexTree.exists_fromBytes hroot hlen
  obtain ⟨hcode, hread⟩ := IndexTree.ofCode_of_fromBytes hfrom
  exact ⟨code, hto, ⟨⟨t, u, hread, hsame, h, hord, hreach⟩, hcard, iff_of_false hcode hne⟩⟩

theorem SetOp.onSet_card {s : Finset Bytes} {t : IndexTree} {op : SetOp}
    (hlen : t.len = s.card % 2 ^ 64) (hcard : s.card < 2 ^ 32) (hop : op.KeepsSlots t) :
    (op.onSet s).1.card < 2 ^ 32 := by
  cases op with
  | insert key =>
    have hle := Finset.card_insert_le key s
    have hroom := hop.2
    show (Insert.insert key s).card < 2 ^ 32
    omega
  | remove key =>
    have hle := Finset.card_erase_le (s := s) (a := key)
    show (s.erase key).card < 2 ^ 32
    omega

/-- **One call on an account** that stands for a set: the answer is the one of the set, and the
    account stands for what is left. -/
theorem StoredSet.call {code : Bytes} {s : Finset Bytes} (h : StoredSet code s) {op : SetOp}
    (hkey : ∀ key, op = .insert key → key.length ≤ 255)
    (hop : ∀ t, IndexTree.ofCode code = .ok t → op.KeepsSlots t) :
    ∃ code', op.onCode code = some (code', (op.onSet s).2) ∧ StoredSet code' (op.onSet s).1 := by
  obtain ⟨t, u, hread, hsame, hkeeps, hord, hreach⟩ := h.exists_tree
  have hslots := (hop u hread).of_same hsame
  obtain ⟨t', ht', hkeeps'⟩ := hkeeps.call Node.kept_packed hslots.allowed
  have hord' := IndexTree.Ordered.call hord ht'
  have hreach' := IndexTree.reaches_call hord hreach hkey ht'
  have hcard' := SetOp.onSet_card hkeeps.len h.card hslots
  have hrel := hsame.onTree op
  rw [ht'] at hrel
  have hcall : op.onCode code = (op.onTree u).bind fun r =>
      (op.written r.1).map fun bytes => (bytes, r.2) := by
    rw [SetOp.onCode, hread]
    rfl
  rw [hcall]
  -- The code is a tree that differs from the one of the run in unused places only.
  generalize op.onTree u = o at hrel ⊢
  cases hrel with
  | @some _ r hr =>
    obtain ⟨u', answer⟩ := r
    obtain ⟨hsame', rfl⟩ := hr
    have hlen' : t'.len = u'.len := hsame'.len
    rw [Option.bind_some]
    by_cases hlast : (op.onSet s).1 = ∅
    · -- Only a removal leaves nothing.
      cases op with
      | insert key => exact absurd hlast (Finset.insert_ne_empty key s)
      | remove key =>
        have hempty : u'.isEmpty = true := by
          rw [IndexTree.isEmpty, ← hlen', hkeeps'.len, hlast]
          rfl
        refine ⟨[], ?_, hlast ▸ storedSet_nil⟩
        rw [SetOp.written, if_pos hempty]
        rfl
    · obtain ⟨code', hto, hstored⟩ := storedSet_of_keeps hkeeps' hord' hreach' hcard' hlast
      refine ⟨code', ?_, hstored⟩
      have hwritten : op.written u' = some code' := by
        rw [hsame'.toBytes] at hto
        cases op with
        | insert key => exact hto
        | remove key =>
          have hpos := Finset.card_pos.mpr (Finset.nonempty_iff_ne_empty.mpr hlast)
          have hlen := hkeeps'.len
          have hfull : ¬u'.isEmpty = true := by
            rw [IndexTree.isEmpty, ← hlen', beq_iff_eq]
            omega
          rw [SetOp.written, if_neg hfull, hto]
      rw [hwritten]
      rfl

/-- What a reader finds in an account that stands for a set. -/
theorem StoredSet.exists_enumerates {code : Bytes} {s : Finset Bytes} (h : StoredSet code s) :
    ∃ t l, IndexTree.ofCode code = .ok t ∧ t.Enumerates l ∧ (∀ k, k ∈ l ↔ k ∈ s) ∧
      t.len = s.card := by
  obtain ⟨t, u, hread, hsame, hkeeps, hord, -⟩ := h.exists_tree
  obtain ⟨l, hl⟩ := IndexTree.enumerates_of_ordered hord
  obtain ⟨l', hl', -, hmem⟩ := hkeeps.keys
  obtain rfl := Option.some.inj (hl.keys.symm.trans hl')
  have hcard := h.card
  have hlen := hkeeps.len
  refine ⟨u, l, hread, hsame.enumerates hl, hmem, ?_⟩
  rw [← hsame.len, hlen, Nat.mod_eq_of_lt (by omega)]

/-- **The stored set**: in every run of calls that read, change and write an index account, where
    keys have at most 255 bytes and every call keeps the slots of the tree that it reads, the
    answers and what a reader enumerates are those of a set, and the account is empty exactly when
    the set is. -/
theorem stored_run {ops : List SetOp} (hkeys : ∀ key, .insert key ∈ ops → key.length ≤ 255)
    (hrun : ReadsWithin SetOp.KeepsSlots ops) :
    ∃ code t l, codeRun ops = some (code, (setRun ops).2) ∧ (code = [] ↔ (setRun ops).1 = ∅) ∧
      IndexTree.ofCode code = .ok t ∧ t.Enumerates l ∧ (∀ k, k ∈ l ↔ k ∈ (setRun ops).1) ∧
      t.len = (setRun ops).1.card := by
  have hstored : ∃ code, codeRun ops = some (code, (setRun ops).2) ∧
      StoredSet code (setRun ops).1 := by
    induction ops using List.reverseRecOn with
    | nil => exact ⟨[], rfl, storedSet_nil⟩
    | append_singleton ops op ih =>
      obtain ⟨code, hcode, hstored⟩ :=
        ih (fun key hkey => hkeys key (List.mem_append_left _ hkey)) hrun.init
      obtain ⟨code', hcall, hstored'⟩ := hstored.call
        (fun key hkey => hkeys key (List.mem_append_right _ (by simp [hkey])))
        (hrun ops op [] rfl _ hcode)
      refine ⟨code', ?_, by rw [setRun_snoc]; exact hstored'⟩
      rw [setRun_snoc, codeRun_snoc, hcode, Option.bind_some, hcall]
      rfl
  obtain ⟨code, hcode, hstored⟩ := hstored
  obtain ⟨t, l, hread, hl, hmem, hlen⟩ := hstored.exists_enumerates
  exact ⟨code, t, l, hcode, hstored.vacant, hread, hl, hmem, hlen⟩

/-- No node of the tree has more than 16 children. -/
def Node.isSmall : Node → Bool
  | .empty => true
  | .leaf _ => true
  | .n4 _ _ _ _ ch => (List.finRange 4).all fun i => (ch i).isSmall
  | .n16 _ _ _ _ ch => (List.finRange 16).all fun i => (ch i).isSmall
  | _ => false

theorem Node.isSmall_of_visits {node t : Node} {key rest : Bytes} (hvisit : Visits node key t rest)
    (h : node.isSmall = true) : t.isSmall = true := by
  induction hvisit with
  | here => exact h
  | @under node c t b rest r hc _ ih =>
    refine ih ?_
    have hchild := child_of_nodeChild hc
    cases node with
    | n4 pfx he n keys ch =>
      obtain ⟨i, -, rfl⟩ := hchild
      exact List.all_eq_true.mp h i (List.mem_finRange i)
    | n16 pfx he n keys ch =>
      obtain ⟨i, -, rfl⟩ := hchild
      exact List.all_eq_true.mp h i (List.mem_finRange i)
    | empty => exact hchild.elim
    | leaf sfx => exact hchild.elim
    | n48 pfx he n idx ch => cases h
    | n256 pfx he n ch => cases h

/-- Small nodes have no slots that a call could lose. -/
theorem SetOp.keepsSlots_of_isSmall {t : IndexTree} (hsmall : t.root.isSmall = true)
    (hlen : t.len + 1 < 2 ^ 32) (op : SetOp) : op.KeepsSlots t := by
  cases op with
  | insert key =>
    refine ⟨fun u b rest hvisit _ _ => ?_, hlen⟩
    have hu := Node.isSmall_of_visits hvisit hsmall
    cases u <;> trivial
  | remove key =>
    intro u b rest c hvisit _ _
    have hu := Node.isSmall_of_visits hvisit hsmall
    cases u <;> trivial

/-- The account is cleared and filled again. -/
def clearOps : List SetOp := [.insert [1], .remove [1], .insert [2]]

theorem readsWithin_clearOps : ReadsWithin SetOp.KeepsSlots clearOps := by
  have hall : ∀ before ∈ clearOps.inits, ((codeRun before).all fun r =>
      (IndexTree.ofCode r.1).toOption.all fun t => t.root.isSmall && t.len == t.len % 2) = true := by
    decide +kernel
  intro before op after heq r hr t ht
  have hflat := hall before ((List.mem_inits before clearOps).mpr ⟨op :: after, heq.symm⟩)
  rw [hr, Option.all_some, ht] at hflat
  simp only [Except.toOption, Option.all_some, Bool.and_eq_true, beq_iff_eq] at hflat
  exact SetOp.keepsSlots_of_isSmall hflat.1 (by omega) op

theorem stored_clearOps : ∃ code t l, codeRun clearOps = some (code, (setRun clearOps).2) ∧
    (code = [] ↔ (setRun clearOps).1 = ∅) ∧ IndexTree.ofCode code = .ok t ∧ t.Enumerates l ∧
    (∀ k, k ∈ l ↔ k ∈ (setRun clearOps).1) ∧ t.len = (setRun clearOps).1.card := by
  refine stored_run (fun key hkey => ?_) readsWithin_clearOps
  simp only [clearOps, List.mem_cons, SetOp.insert.injEq, reduceCtorEq, List.not_mem_nil,
    or_false, false_or] at hkey
  obtain rfl | rfl := hkey <;> decide

end Arkiv
