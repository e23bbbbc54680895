import Mathlib
import Arkiv.IndexTree.Removal

/-!
# Enumeration

The children of a node in the order of their bytes, and the keys that a
depth-first run collects: every key of the tree, and none twice.

## Main definitions

- `Node.kids` — the children with their bytes, in ascending order
- `Node.collectAll_eq` — one collection for all kinds of nodes
- `Node.Each.collectAll` — the collected keys
-/

namespace Arkiv.Node

open ByteString

/-- The children with their bytes, in ascending order. -/
def kids (node : Node) : List (UInt8 × Node) :=
  allBytes.filterMap fun b => (node.nodeChild b).map fun c => (b, c)

variable {node : Node} {b : UInt8} {c : Node}

theorem mem_kids : (b, c) ∈ node.kids ↔ node.nodeChild b = some c := by
  unfold kids
  rw [List.mem_filterMap]
  constructor
  · rintro ⟨b', -, hb'⟩
    obtain ⟨c', hc', heq⟩ := Option.map_eq_some_iff.mp hb'
    cases heq
    exact hc'
  · intro hc
    exact ⟨b, mem_allBytes b, by rw [hc]; rfl⟩

theorem kids_pairwise (node : Node) : node.kids.Pairwise fun x y => x.1 < y.1 := by
  unfold kids
  rw [List.pairwise_filterMap]
  refine allBytes_pairwise.imp fun {a b} hab x hx y hy => ?_
  obtain ⟨c, -, rfl⟩ := Option.map_eq_some_iff.mp hx
  obtain ⟨d, -, rfl⟩ := Option.map_eq_some_iff.mp hy
  exact hab

theorem kids_nodup (node : Node) : node.kids.Nodup :=
  node.kids_pairwise.imp fun h heq => UInt8.ne_of_lt h (congrArg Prod.fst heq)

/-- Ascending bytes and the right children make the list of children. -/
theorem eq_kids {l : List (UInt8 × Node)} (hl : l.Pairwise fun x y => x.1 < y.1)
    (hmem : ∀ b c, (b, c) ∈ l ↔ node.nodeChild b = some c) : l = node.kids := by
  have hnodup : l.Nodup := hl.imp fun h heq => UInt8.ne_of_lt h (congrArg Prod.fst heq)
  have hperm : l.Perm node.kids := by
    rw [List.perm_ext_iff_of_nodup hnodup node.kids_nodup]
    rintro ⟨b, c⟩
    rw [hmem, mem_kids]
  refine hperm.eq_of_pairwise (fun x y _ _ hxy hyx => ?_) hl node.kids_pairwise
  exact absurd (UInt8.lt_trans hxy hyx) (UInt8.lt_irrefl _)

theorem SmallSound.kids_eq {cap n : ℕ} {keys : Fin cap → UInt8} {ch : Fin cap → Node}
    (h : SmallSound n keys ch) (hchild : ∀ b, node.nodeChild b = (findKey n keys b).map ch) :
    node.kids = ((List.finRange cap).filter (·.val < n)).map fun i => (keys i, ch i) := by
  symm
  apply eq_kids
  · rw [List.pairwise_map]
    refine ((List.pairwise_lt_finRange cap).filter _).imp_of_mem fun {i j} _ hj hij => ?_
    exact h.ascending i j hij (by simpa using (List.mem_filter.mp hj).2)
  · intro b c
    rw [hchild, map_findKey_eq_some h.ascending]
    simp only [List.mem_map, List.mem_filter, List.mem_finRange, true_and, decide_eq_true_eq,
      Prod.mk.injEq]

theorem mapM_filterMap_flatten {α β γ : Type} {f : α → Option β} {g : α → Option (List γ)}
    {k : β → Option (List γ)} (hsome : ∀ a b, f a = some b → g a = k b)
    (hnone : ∀ a, f a = none → g a = some []) (l : List α) :
    (l.mapM g).map List.flatten = ((l.filterMap f).mapM k).map List.flatten := by
  induction l with
  | nil => rfl
  | cons a l ih =>
    rw [List.mapM_cons, List.filterMap_cons]
    cases hf : f a with
    | none =>
      rw [hnone a hf, ← ih]
      cases hl : l.mapM g <;> rfl
    | some b =>
      rw [hsome a b hf]
      dsimp only
      rw [List.mapM_cons]
      cases hk : k b with
      | none => rfl
      | some x =>
        cases hl : l.mapM g with
        | none =>
          rw [hl] at ih
          cases hr : (l.filterMap f).mapM k with
          | none => rfl
          | some ys => rw [hr] at ih; cases ih
        | some xs =>
          rw [hl] at ih
          cases hr : (l.filterMap f).mapM k with
          | none => rw [hr] at ih; cases ih
          | some ys =>
            rw [hr] at ih
            have hflat : xs.flatten = ys.flatten := Option.some.inj ih
            show some (x :: xs).flatten = some (x :: ys).flatten
            rw [List.flatten_cons, List.flatten_cons, hflat]

/-- **One collection for all kinds**: the key of the node itself, then the keys below the children
    in the order of their bytes. -/
theorem Sound.collectAll_eq (h : node.Sound) (hin : node.isInner = true) (path : Bytes) :
    collectAll node path =
      ((node.kids.mapM fun kid => collectAll kid.2 (path ++ node.nodePrefix ++ [kid.1])).map
        List.flatten).map fun below =>
          (if node.nodeHasEnd then [path ++ node.nodePrefix] else []) ++ below := by
  cases node with
  | empty => cases hin
  | leaf sfx => cases hin
  | n4 pfx he n keys ch =>
    rw [SmallSound.kids_eq h fun _ => rfl, List.mapM_map, Option.map_map]
    rw [collectAll]
    rfl
  | n16 pfx he n keys ch =>
    rw [SmallSound.kids_eq h fun _ => rfl, List.mapM_map, Option.map_map]
    rw [collectAll]
    rfl
  -- Bytes without a slot give nothing, which is what the list of children leaves out.
  | n48 pfx he n idx ch =>
    unfold kids
    rw [← mapM_filterMap_flatten (g := fun b =>
      if idx b = n48Nil then some []
      else if h : (idx b).toNat < 48 then
        collectAll (ch ⟨(idx b).toNat, h⟩) (path ++ pfx ++ [b])
      else none), Option.map_map]
    · rw [collectAll]
      rfl
    · rintro b ⟨b', c⟩ hb
      obtain ⟨c', hc', heq⟩ := Option.map_eq_some_iff.mp hb
      cases heq
      obtain ⟨s, hs, rfl⟩ := nodeChild_n48_eq_some.mp hc'
      have hval : (idx b).toNat = s.val := by rw [hs, toNat_ofNat_slot]
      have hlt : (idx b).toNat < 48 := by have := s.isLt; omega
      have hslot : (⟨(idx b).toNat, hlt⟩ : Fin 48) = s := Fin.ext hval
      rw [if_neg (by rw [hs]; exact ofNat_slot_ne_nil s), dif_pos hlt, hslot]
      rfl
    · intro b hb
      have hnil := (IndexSound.nodeChild_eq_none h).mp (Option.map_eq_none_iff.mp hb)
      rw [if_pos hnil]
  | n256 pfx he n ch =>
    unfold kids
    rw [← mapM_filterMap_flatten (g := fun b => collectAll (ch b) (path ++ pfx ++ [b])),
      Option.map_map]
    · rw [collectAll]
      rfl
    · rintro b ⟨b', c⟩ hb
      obtain ⟨c', hc', heq⟩ := Option.map_eq_some_iff.mp hb
      cases heq
      obtain ⟨rfl, -⟩ := nodeChild_n256_eq_some.mp hc'
      rfl
    · intro b hb
      have hempty : ch b = empty := by
        apply isEmpty_eq_true.mp
        by_contra hne
        simp [nodeChild, hne] at hb
      rw [hempty, collectAll]

/-- The collected keys: all below the path, and none twice. -/
def Enumerates (node : Node) (path : Bytes) (l : List Bytes) : Prop :=
  l.Nodup ∧ ∀ k, k ∈ l ↔ ∃ rest, k = path ++ rest ∧ Holds node rest

/-- The keys below several children, whose bytes differ. -/
theorem exists_mapM_kids {path : Bytes} {kids : List (UInt8 × Node)}
    (hkids : kids.Pairwise fun x y => x.1 < y.1)
    (hall : ∀ kid ∈ kids, ∀ path, ∃ l, collectAll kid.2 path = some l ∧ Enumerates kid.2 path l) :
    ∃ below, (kids.mapM fun kid => collectAll kid.2 (path ++ [kid.1])) = some below ∧
      below.flatten.Nodup ∧ ∀ k, k ∈ below.flatten ↔
        ∃ kid ∈ kids, ∃ rest, k = path ++ kid.1 :: rest ∧ Holds kid.2 rest := by
  induction kids with
  | nil => exact ⟨[], rfl, by simp, by simp⟩
  | cons kid kids ih =>
    obtain ⟨hfirst, hrest⟩ := List.pairwise_cons.mp hkids
    obtain ⟨l, hl, hnodup, hmem⟩ := hall kid List.mem_cons_self (path ++ [kid.1])
    obtain ⟨below, hbelow, hnodup', hmem'⟩ := ih hrest fun x hx =>
      hall x (List.mem_cons_of_mem _ hx)
    refine ⟨l :: below, by rw [List.mapM_cons, hl, hbelow]; rfl, ?_, fun k => ?_⟩
    · rw [List.flatten_cons, List.nodup_append]
      refine ⟨hnodup, hnodup', fun x hx y hy heq => ?_⟩
      obtain ⟨rest, rfl, -⟩ := (hmem x).mp hx
      obtain ⟨other, hother, rest', hy', -⟩ := (hmem' y).mp hy
      rw [← heq, List.append_assoc] at hy'
      exact UInt8.ne_of_lt (hfirst other hother) (branch_inj hy').1
    · rw [List.flatten_cons, List.mem_append, hmem, hmem']
      constructor
      · rintro (⟨rest, rfl, h⟩ | ⟨other, hother, h⟩)
        · exact ⟨kid, List.mem_cons_self, rest, by simp, h⟩
        · exact ⟨other, List.mem_cons_of_mem _ hother, h⟩
      · rintro ⟨other, hother, rest, rfl, h⟩
        rcases List.mem_cons.mp hother with rfl | hother
        · exact .inl ⟨rest, by simp, h⟩
        · exact .inr ⟨other, hother, rest, rfl, h⟩

/-- **The enumeration** of a sound tree succeeds with the keys that it holds. -/
theorem Each.collectAll (h : Each Sound node) (path : Bytes) :
    ∃ l, Node.collectAll node path = some l ∧ Enumerates node path l := by
  induction h generalizing path with
  | leaf sfx =>
    refine ⟨[path ++ sfx], rfl, by simp, fun k => ?_⟩
    simp only [List.mem_singleton, holds_leaf, exists_eq_right]
  | @inner node hin hsound hchild ih =>
    obtain ⟨below, hbelow, hnodup, hmem⟩ := @exists_mapM_kids (path ++ node.nodePrefix) _
      node.kids_pairwise fun kid hkid path => ih kid.1 kid.2 (mem_kids.mp hkid) path
    rw [hsound.collectAll_eq hin, hbelow]
    refine ⟨_, rfl, ?_, fun k => ?_⟩
    · rw [List.nodup_append]
      refine ⟨by split <;> simp, hnodup, fun x hx y hy heq => ?_⟩
      obtain ⟨kid, -, rest, hrest, -⟩ := (hmem y).mp hy
      have hx' : x = path ++ node.nodePrefix := by
        split at hx
        · simpa using hx
        · cases hx
      rw [← heq, hx'] at hrest
      simp at hrest
    · rw [List.mem_append, hmem]
      simp only [holds_inner hin]
      constructor
      · rintro (hk | ⟨kid, hkid, rest, rfl, h⟩)
        · split at hk
          · next hend => exact ⟨node.nodePrefix, by simpa using hk, .inl ⟨hend, rfl⟩⟩
          · cases hk
        · exact ⟨node.nodePrefix ++ kid.1 :: rest, by simp,
            .inr ⟨kid.1, rest, kid.2, rfl, mem_kids.mp hkid, h⟩⟩
      · rintro ⟨k', rfl, ⟨hend, rfl⟩ | ⟨b, rest, c, rfl, hc, h⟩⟩
        · exact .inl (by simp [hend])
        · exact .inr ⟨(b, c), mem_kids.mpr hc, rest, by simp, h⟩

end Arkiv.Node
