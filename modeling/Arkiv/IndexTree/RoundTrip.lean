import Mathlib
import Arkiv.IndexTree.Documented
import Arkiv.IndexTree.Format
import Arkiv.IndexTree.Same

/-!
# Written and read back

The encoder writes the first `n` slots of a 48-node, so a tree comes back whole
as long as no 48-node has a child behind its count. A deletion from the middle
of the slots puts one there.

## Main definitions

- `Node.Packed`, `Node.FreesLast` — children in the slots that are written, and the deletions
  that keep them there
- `Node.Reads` — a node whose encoding is read back
- `IndexTree.RoundTrips` — a tree that comes back and goes on as before
- `roundTrips_run` — every run of calls that keep the slots
-/

namespace Arkiv

open ByteString

namespace Node

/-- The index entries of a 48-node stay below its count. -/
def SlotsBelow (n : ℕ) (idx : UInt8 → UInt8) : Prop := ∀ b, idx b ≠ n48Nil → (idx b).toNat < n

/-- 48-nodes have no child behind their count, and 256-nodes count their children. -/
def Packed : Node → Prop
  | n48 _ _ n idx _ => SlotsBelow n idx
  | n256 _ _ n ch => n = (fullBytes ch).length
  | _ => True

/-- A 48-node gives up its last slot, or shrinks. A 256-node does not count down. -/
def FreesLast : Node → UInt8 → Prop
  | n48 _ _ n idx _, b => n ≤ 17 ∨ (idx b).toNat + 1 = n
  | n256 _ _ _ _, _ => False
  | _, _ => True

variable {node : Node} {b : UInt8} {pfx : Bytes} {he : Bool} {n : ℕ}

section Slots

variable {idx : UInt8 → UInt8} {ch : Fin 48 → Node}

/-- The slots behind the count are free. -/
theorem IndexSound.isEmpty_of_le (h : IndexSound n idx ch) (hP : SlotsBelow n idx)
    {s : Fin 48} (hs : n ≤ s.val) : (ch s).isEmpty = true := by
  by_contra hfull
  obtain ⟨b, hb⟩ := (h.full s).mp (by simpa using hfull)
  have hlt := hP b (by rw [hb]; exact ofNat_slot_ne_nil s)
  rw [hb, toNat_ofNat_slot] at hlt
  exact absurd hs (not_le.mpr hlt)

/-- The first free slot is at the count or before it. -/
theorem IndexSound.firstFree_le (h : IndexSound n idx ch) (hP : SlotsBelow n idx)
    (hn : n < 48) {s : Fin 48}
    (hfirst : (List.finRange 48).find? (fun s => (ch s).isEmpty) = some s) : s.val ≤ n := by
  by_contra hlt
  obtain ⟨-, i, hi, hget, hbefore⟩ := List.find?_eq_some_iff_getElem.mp hfirst
  rw [List.getElem_finRange] at hget
  have hival : i = s.val := congrArg Fin.val hget
  have hfull := hbefore n (by omega)
  rw [List.getElem_finRange] at hfull
  have hfree : (ch ⟨n, hn⟩).isEmpty = true := h.isEmpty_of_le hP le_rfl
  rw [Bool.not_eq_true'] at hfull
  exact absurd (hfree.symm.trans hfull) (by decide)

theorem SlotsBelow.add (hP : SlotsBelow n idx) {s : ℕ} (hs : s ≤ n) (hn : n < 48) :
    SlotsBelow (n + 1) (Function.update idx b (UInt8.ofNat s)) := by
  intro b' hb'
  by_cases heq : b' = b
  · rw [heq, Function.update_self, UInt8.toNat_ofNat_of_lt' (show s < 256 by omega)]
    omega
  · rw [Function.update_of_ne heq] at hb' ⊢
    exact Nat.lt_succ_of_lt (hP b' hb')

theorem SlotsBelow.del (hP : SlotsBelow n idx) (h : IndexSound n idx ch)
    (hlast : (idx b).toNat + 1 = n) : SlotsBelow (n - 1) (Function.update idx b n48Nil) := by
  intro b' hb'
  by_cases heq : b' = b
  · rw [heq, Function.update_self] at hb'
    exact absurd rfl hb'
  · rw [Function.update_of_ne heq] at hb' ⊢
    have hlt := hP b' hb'
    have hne : (idx b').toNat ≠ (idx b).toNat := fun hval =>
      heq (h.inj b' b hb' (UInt8.toNat_inj.mp hval))
    omega

/-- A 48-node that was a full 16-node has its keys in the first slots. -/
theorem slotsBelow_slotOfKey {keys : Fin 16 → UInt8} : SlotsBelow 16 (slotOfKey 16 keys) := by
  intro b hb
  obtain ⟨i, hi⟩ := Option.ne_none_iff_exists'.mp fun hnone => hb (slotOfKey_eq_nil.mpr hnone)
  have hlt := i.isLt
  rw [(slotOfKey_eq_ofNat (s := i.val) (by omega)).mpr ⟨i, hi, rfl⟩,
    UInt8.toNat_ofNat_of_lt' (show i.val < 256 by omega)]
  exact hlt

end Slots

/-- **Packing is kept** by growth without loss and by deletions of last slots. -/
theorem kept_packed : Kept Packed (fun t _ => t.GrowsSafely) FreesLast where
  room {node b} _ hP hA := by
    cases node with
    | n48 pfx he n idx ch => exact hA
    | n256 pfx he n ch => exact succ_lt_of_count hP
    | _ => trivial
  setPrefix {node} pfx hP := by cases node <;> exact hP
  setHasEnd {node} hP := by cases node <;> exact hP
  setChild {node b c₀ c} _ hP hc hx := by
    cases node with
    | empty => cases hc
    | leaf sfx => cases hc
    | n4 pfx he n keys ch =>
      simp only [Node.setChild]
      split <;> trivial
    | n16 pfx he n keys ch =>
      simp only [Node.setChild]
      split <;> trivial
    | n48 pfx he n idx ch =>
      simp only [Node.setChild]
      split <;> exact hP
    | n256 pfx he n ch => exact recount_setChild hP hc hx
  fork {pfx he kids node} hfork _ _ := by
    obtain ⟨keys, ch, rfl⟩ := hfork.shape
    trivial
  add {node b c node'} hsound hP _ hnone hx hshape := by
    cases hshape with
    | n4 => trivial
    | n4Full => trivial
    | n16 => trivial
    | n16Full => exact slotsBelow_slotOfKey.add le_rfl (by decide)
    -- The first free slot is the next one as long as the used slots have no gap.
    | n48 hn hfirst =>
      exact SlotsBelow.add hP (IndexSound.firstFree_le hsound hP hn hfirst) hn
    | n48Full hch' => exact recount_grown hsound hch' hnone hx
    | n256 => exact recount_add hP hnone hx
  unend {node node'} _ hP hsettles := by
    cases node with
    | n16 pfx he n keys ch =>
      cases hsettles <;> trivial
    | n48 pfx he n idx ch =>
      cases hsettles with
      | stay => exact hP
      | toN16 => trivial
    | _ => cases hsettles; exact hP
  del {node b c₀ del node'} hsound hP hD _ hshape _ hsettles := by
    cases hshape with
    | n4 =>
      cases hsettles
      trivial
    | n16 => cases hsettles <;> trivial
    -- A node that stays one has to lose its last slot; below 17 children it is packed anew.
    | @n48 pfx he n idx ch =>
      cases hsettles with
      | toN16 => trivial
      | stay hsettled =>
        have hlow : 16 < n - 1 := hsettled
        exact SlotsBelow.del hP hsound (hD.resolve_left (by omega))
    | n256 => exact hD.elim

section Rows

variable {ι α : Type} {item : Bytes → Except TreeError (α × Bytes)} {enc : ι → Bytes} {val : ι → α}

/-- A row of items, each written and read by itself. -/
theorem deMany_map {l : List ι} (h : ∀ i ∈ l, ∀ rest, item (enc i ++ rest) = .ok (val i, rest))
    (rest : Bytes) :
    deMany item l.length ((l.map enc).flatten ++ rest) = .ok (l.map val, rest) := by
  induction l with
  | nil => rfl
  | cons i l ih =>
    have hfirst := h i List.mem_cons_self ((l.map enc).flatten ++ rest)
    have hrest := ih fun j hj => h j (List.mem_cons_of_mem i hj)
    rw [List.map_cons, List.flatten_cons, List.append_assoc, List.length_cons]
    exact Runs.ok_bind.mpr ⟨_, hfirst, Runs.ok_bind.mpr ⟨_, hrest, rfl⟩⟩

theorem mapM_eq_some {f : ι → Option Bytes} {l : List ι} (h : ∀ i ∈ l, f i = some (enc i)) :
    l.mapM f = some (l.map enc) := by
  rw [mapM_congr h]
  exact List.mapM_pure

variable {cap : ℕ}

theorem serChildren_eq {ser : Fin cap → Option Bytes} {enc : Fin cap → Bytes} (hn : n ≤ cap)
    (h : ∀ i, i.val < n → ser i = some (enc i)) :
    serChildren n ser = some (((List.finRange cap).take n).map enc).flatten := by
  unfold serChildren
  rw [if_pos hn, mapM_eq_some fun i hi => h i (val_lt_of_mem_take hi), Option.map_some]

theorem length_take_finRange (hn : n ≤ cap) : ((List.finRange cap).take n).length = n := by
  rw [List.length_take, List.length_finRange, min_eq_left hn]

theorem getElem?_map_take {f : Fin cap → α} {i : Fin cap} (hi : i.val < n) :
    (((List.finRange cap).take n).map f)[i.val]? = some (f i) := by
  rw [List.getElem?_map, List.getElem?_take_of_lt hi, List.getElem?_eq_getElem (by simp),
    List.getElem_finRange]
  rfl

theorem getElem?_map_take_of_le {f : Fin cap → α} {i : Fin cap} (hi : n ≤ i.val) :
    (((List.finRange cap).take n).map f)[i.val]? = none := by
  rw [List.getElem?_map, List.getElem?_take_eq_none hi]
  rfl

end Rows

/-- The encoding is read back as a node that cannot be told from this one. -/
def Reads (x : Node) : Prop :=
  ∃ front y, x.serNode = some front ∧ Same x y ∧
    ∀ fuel rest, front.length ≤ fuel → deNode fuel (front ++ rest) = .ok (y, rest)

theorem reads_empty : Reads empty := by
  refine ⟨[tagEmpty], empty, rfl, .empty, fun fuel rest hfuel => ?_⟩
  obtain ⟨fuel, rfl⟩ := Nat.exists_eq_succ_of_ne_zero (Nat.ne_of_gt hfuel)
  rfl

theorem reads_leaf {sfx : Bytes} (hsfx : sfx.length < 256 ^ 2) : Reads (leaf sfx) := by
  refine ⟨_, leaf sfx, rfl, .leaf sfx, fun fuel rest hfuel => ?_⟩
  obtain ⟨fuel, rfl⟩ := Nat.exists_eq_succ_of_ne_zero (Nat.ne_of_gt (Nat.zero_lt_of_lt hfuel))
  rw [List.cons_append, List.cons_append, List.append_assoc, deNode_leaf]
  exact Runs.ok_bind.mpr ⟨_, u16At_ok.mpr ⟨hsfx, rfl⟩,
    Runs.ok_bind.mpr ⟨_, sliceAt_ok.mpr ⟨rfl, rfl⟩, rfl⟩⟩

/-- A prefix with the flag for the node's own key. -/
theorem serPfx_eq (hpfx : pfx.length ≤ 255) :
    serPfx pfx he = some (pfxBytes pfx (if he then 1 else 0)) := by
  rw [serPfx, if_pos hpfx]
  rfl

theorem dePfx_pfxBytes (hpfx : pfx.length ≤ 255) (rest : Bytes) :
    dePfx (pfxBytes pfx (if he then 1 else 0) ++ rest) = .ok ((pfx, he), rest) := by
  refine dePfx_ok.mpr ⟨_, by omega, ?_, rfl⟩
  cases he <;> rfl

/-- The encodings of several children with what they are read as. -/
theorem exists_reads {ι : Type} {p : ι → Prop} {ch : ι → Node} (h : ∀ i, p i → (ch i).Reads) :
    ∃ (front : ι → Bytes) (y : ι → Node), ∀ i, p i → (ch i).serNode = some (front i) ∧
      Same (ch i) (y i) ∧
      ∀ fuel rest, (front i).length ≤ fuel → deNode fuel (front i ++ rest) = .ok (y i, rest) := by
  have hone : ∀ i, ∃ front y, p i → (ch i).serNode = some front ∧ Same (ch i) y ∧
      ∀ fuel rest, front.length ≤ fuel → deNode fuel (front ++ rest) = .ok (y, rest) := by
    intro i
    by_cases hi : p i
    · obtain ⟨front, y, hy⟩ := h i hi
      exact ⟨front, y, fun _ => hy⟩
    · exact ⟨[], empty, fun hp => absurd hp hi⟩
  choose front y hy using hone
  exact ⟨front, y, hy⟩

section Small

variable {cap : ℕ} {keys : Fin cap → UInt8} {ch : Fin cap → Node}

/-- The written children of a small node. -/
def smallBytes (n : ℕ) (keys : Fin cap → UInt8) (front : Fin cap → Bytes) : Bytes :=
  (((List.finRange cap).take n).map fun i => keys i :: front i).flatten

theorem length_le_smallBytes (keys : Fin cap → UInt8) (front : Fin cap → Bytes) {i : Fin cap}
    (hi : i.val < n) :
    (front i).length ≤ (smallBytes n keys front).length := by
  have hmem : keys i :: front i ∈ ((List.finRange cap).take n).map fun i => keys i :: front i :=
    List.mem_of_getElem? (getElem?_map_take hi)
  have hle := length_le_flatten hmem
  rw [List.length_cons] at hle
  exact (Nat.le_succ _).trans hle

theorem deSmall_smallBytes {tag : UInt8} {child : Bytes → Except TreeError (Node × Bytes)}
    {mk : Bytes → Bool → ℕ → List (UInt8 × Node) → Node} (hcap : cap < 256) (hn : n ≤ cap)
    (hpfx : pfx.length ≤ 255) {front : Fin cap → Bytes} {y : Fin cap → Node}
    (hread : ∀ i, i.val < n → ∀ rest, child (front i ++ rest) = .ok (y i, rest)) (rest : Bytes) :
    deSmall cap tag child mk (pfxBytes pfx (if he then 1 else 0) ++
      UInt8.ofNat n :: (smallBytes n keys front ++ rest)) =
        .ok (mk pfx he n (((List.finRange cap).take n).map fun i => (keys i, y i)), rest) := by
  have hcount : (UInt8.ofNat n).toNat = n := UInt8.toNat_ofNat_of_lt' (show n < 256 by omega)
  have hitem : ∀ i ∈ (List.finRange cap).take n, ∀ rest,
      deKeyed child (keys i :: front i ++ rest) = .ok ((keys i, y i), rest) := fun i hi rest =>
    deKeyed_ok.mpr ⟨_, rfl, hread i (val_lt_of_mem_take hi) rest⟩
  have hmany := deMany_map hitem rest
  rw [length_take_finRange hn] at hmany
  refine deSmall_ok.mpr ⟨pfx, he, _, ((List.finRange cap).take n).map fun i => (keys i, y i), _, rest,
    dePfx_pfxBytes hpfx _, ?_, ?_, ?_, rfl⟩
  · rw [hcount]
    exact hn
  · rw [hcount]
    exact hmany
  · rw [hcount]

theorem keys_mk {y : Fin cap → Node} {i : Fin cap} (hi : i.val < n) :
    ((((List.finRange cap).take n).map fun i => (keys i, y i))[i.val]?).elim 0 Prod.fst =
      keys i := by
  rw [getElem?_map_take hi]
  rfl

theorem ch_mk {y : Fin cap → Node} {i : Fin cap} (hi : i.val < n) :
    ((((List.finRange cap).take n).map fun i => (keys i, y i))[i.val]?).elim empty Prod.snd =
      y i := by
  rw [getElem?_map_take hi]
  rfl

theorem serChildren_small {front : Fin cap → Bytes} (hn : n ≤ cap)
    (hser : ∀ i, i.val < n → (ch i).serNode = some (front i)) :
    (serChildren n fun i => ((ch i).serNode).map (keys i :: ·)) =
      some (smallBytes n keys front) := by
  refine serChildren_eq hn fun i hi => ?_
  rw [hser i hi]
  rfl

end Small

theorem reads_n4 {keys : Fin 4 → UInt8} {ch : Fin 4 → Node} (hn : n ≤ 4)
    (hpfx : pfx.length ≤ 255) (hch : ∀ i, i.val < n → (ch i).Reads) :
    (n4 pfx he n keys ch).Reads := by
  obtain ⟨front, y, hy⟩ := exists_reads hch
  refine ⟨tagN4 :: pfxBytes pfx (if he then 1 else 0) ++ UInt8.ofNat n :: smallBytes n keys front,
    mkN4 pfx he n (((List.finRange 4).take n).map fun i => (keys i, y i)), ?_, ?_, ?_⟩
  · unfold serNode
    rw [serPfx_eq hpfx, Option.bind_some, serChildren_small hn fun i hi => (hy i hi).1]
    rfl
  · refine .n4 (fun i hi => (keys_mk hi).symm) fun i hi => ?_
    rw [ch_mk hi]
    exact (hy i hi).2.1
  · intro fuel rest hfuel
    simp only [List.length_append, List.length_cons] at hfuel
    obtain ⟨fuel, rfl⟩ : ∃ k, fuel = k + 1 := ⟨fuel - 1, by omega⟩
    simp only [List.cons_append, List.append_assoc]
    rw [deNode_n4]
    refine deSmall_smallBytes (by decide) hn hpfx (fun i hi rest => (hy i hi).2.2 fuel rest ?_) rest
    have hle := length_le_smallBytes keys front hi
    omega

theorem reads_n16 {keys : Fin 16 → UInt8} {ch : Fin 16 → Node} (hn : n ≤ 16)
    (hpfx : pfx.length ≤ 255) (hch : ∀ i, i.val < n → (ch i).Reads) :
    (n16 pfx he n keys ch).Reads := by
  obtain ⟨front, y, hy⟩ := exists_reads hch
  refine ⟨tagN16 :: pfxBytes pfx (if he then 1 else 0) ++ UInt8.ofNat n :: smallBytes n keys front,
    mkN16 pfx he n (((List.finRange 16).take n).map fun i => (keys i, y i)), ?_, ?_, ?_⟩
  · unfold serNode
    rw [serPfx_eq hpfx, Option.bind_some, serChildren_small hn fun i hi => (hy i hi).1]
    rfl
  · refine .n16 (fun i hi => (keys_mk hi).symm) fun i hi => ?_
    rw [ch_mk hi]
    exact (hy i hi).2.1
  · intro fuel rest hfuel
    simp only [List.length_append, List.length_cons] at hfuel
    obtain ⟨fuel, rfl⟩ : ∃ k, fuel = k + 1 := ⟨fuel - 1, by omega⟩
    simp only [List.cons_append, List.append_assoc]
    rw [deNode_n16]
    refine deSmall_smallBytes (by decide) hn hpfx (fun i hi rest => (hy i hi).2.2 fuel rest ?_) rest
    have hle := length_le_smallBytes keys front hi
    omega

theorem getElem?_allBytes (b : UInt8) : allBytes[b.toNat]? = some b := by
  rw [allBytes, List.getElem?_map, List.getElem?_range (UInt8.toNat_lt b)]
  exact congrArg some UInt8.ofNat_toNat

theorem getD_map_allBytes {α : Type} {f : UInt8 → α} {d : α} (b : UInt8) :
    (allBytes.map f).getD b.toNat d = f b := by
  rw [List.getD_eq_getElem?_getD, List.getElem?_map, getElem?_allBytes]
  rfl

theorem reads_n48 {idx : UInt8 → UInt8} {ch : Fin 48 → Node} (hn : n ≤ 48)
    (hpfx : pfx.length ≤ 255) (hch : ∀ s, s.val < n → (ch s).Reads)
    (hfree : ∀ s, n ≤ s.val → (ch s).isEmpty = true) : (n48 pfx he n idx ch).Reads := by
  obtain ⟨front, y, hy⟩ := exists_reads hch
  have hcount : (UInt8.ofNat n).toNat = n := UInt8.toNat_ofNat_of_lt' (show n < 256 by omega)
  refine ⟨tagN48 :: pfxBytes pfx (if he then 1 else 0) ++ UInt8.ofNat n ::
      (allBytes.map idx ++ (((List.finRange 48).take n).map front).flatten),
    n48 pfx he n idx fun s => (((List.finRange 48).take n).map y).getD s.val empty, ?_, ?_, ?_⟩
  · unfold serNode
    rw [serPfx_eq hpfx, Option.bind_some, serChildren_eq hn fun s hs => (hy s hs).1]
    rfl
  · refine .n48 fun s => ?_
    rw [List.getD_eq_getElem?_getD]
    by_cases hs : s.val < n
    · rw [getElem?_map_take hs]
      exact (hy s hs).2.1
    · rw [getElem?_map_take_of_le (not_lt.mp hs), isEmpty_eq_true.mp (hfree s (not_lt.mp hs))]
      exact .empty
  · intro fuel rest hfuel
    simp only [List.length_append, List.length_cons] at hfuel
    obtain ⟨fuel, rfl⟩ : ∃ k, fuel = k + 1 := ⟨fuel - 1, by omega⟩
    have hitem : ∀ s ∈ (List.finRange 48).take n, ∀ rest,
        deNode fuel (front s ++ rest) = .ok (y s, rest) := by
      intro s hs rest
      refine (hy s (val_lt_of_mem_take hs)).2.2 fuel rest ?_
      have hle := length_le_flatten (List.mem_map_of_mem (f := front) hs)
      omega
    have hmany := deMany_map hitem rest
    have hmin : min (UInt8.ofNat n).toNat 48 = n := by omega
    rw [length_take_finRange hn] at hmany
    simp only [List.cons_append, List.append_assoc]
    rw [deNode_n48]
    refine Runs.ok_bind.mpr ⟨_, dePfx_pfxBytes hpfx _, Runs.ok_bind.mpr ⟨_, u8At_ok.mpr rfl,
      Runs.ok_bind.mpr ⟨_, sliceAt_ok.mpr ⟨?_, rfl⟩,
        Runs.ok_bind.mpr ⟨(((List.finRange 48).take n).map y, rest), ?_, ?_⟩⟩⟩⟩
    · rw [List.length_map, length_allBytes]
    · rw [hmin]
      exact hmany
    · dsimp only
      rw [hcount]
      simp only [getD_map_allBytes]
      rfl

theorem reads_n256 {ch : UInt8 → Node} (hcount : n = (fullBytes ch).length)
    (hpfx : pfx.length ≤ 255) (hch : ∀ b, (ch b).Reads) : (n256 pfx he n ch).Reads := by
  obtain ⟨front, y, hy⟩ := exists_reads (p := fun _ => True) fun b _ => hch b
  refine ⟨tagN256 :: pfxBytes pfx (if he then 1 else 0) ++ (allBytes.map front).flatten,
    n256 pfx he ((allBytes.map y).countP fun c => !c.isEmpty)
      fun b => (allBytes.map y).getD b.toNat empty, ?_, ?_, ?_⟩
  · unfold serNode
    rw [serPfx_eq hpfx, Option.bind_some, mapM_eq_some fun b _ => (hy b trivial).1]
    rfl
  · have hsame : ∀ b, Same (ch b) (y b) := fun b => (hy b trivial).2.1
    have hfull : (allBytes.map y).countP (fun c => !c.isEmpty) = n := by
      rw [hcount, fullBytes_congr hsame, List.countP_map, fullBytes, ← List.countP_eq_length_filter]
      rfl
    rw [hfull]
    refine .n256 fun b => ?_
    rw [getD_map_allBytes]
    exact hsame b
  · intro fuel rest hfuel
    simp only [List.length_append, List.length_cons] at hfuel
    obtain ⟨fuel, rfl⟩ : ∃ k, fuel = k + 1 := ⟨fuel - 1, by omega⟩
    have hitem : ∀ b ∈ allBytes, ∀ rest, deNode fuel (front b ++ rest) = .ok (y b, rest) := by
      intro b hb rest
      refine (hy b trivial).2.2 fuel rest ?_
      have hle := length_le_flatten (List.mem_map_of_mem (f := front) hb)
      omega
    have hmany := deMany_map hitem rest
    rw [length_allBytes] at hmany
    simp only [List.cons_append, List.append_assoc]
    rw [deNode_n256]
    exact Runs.ok_bind.mpr ⟨_, dePfx_pfxBytes hpfx _, Runs.ok_bind.mpr ⟨_, hmany, rfl⟩⟩

/-- What is read back of a packed tree whose prefixes and suffixes fit their length fields. -/
theorem Each.reads {d L : ℕ} (h : Each (fun t => t.Sound ∧ t.Packed) node)
    (hreach : Reaches L d node) (hL : L ≤ 255) : node.Reads := by
  induction h generalizing d with
  | leaf sfx =>
    have hle := reaches_leaf.mp hreach
    exact reads_leaf (by omega)
  | @inner node hin hQ hchild ih =>
    obtain ⟨hsound, hP⟩ := hQ
    obtain ⟨hle, hbelow⟩ := (reaches_inner hin).mp hreach
    have hpfx : node.nodePrefix.length ≤ 255 := by omega
    have hreads : ∀ c, node.Child c → c.Reads := by
      intro c hc
      obtain rfl | ⟨b, hb⟩ := hsound.child_cases hc
      · exact reads_empty
      · exact ih b c hb (hbelow c hc)
    cases node with
    | empty => cases hin
    | leaf sfx => cases hin
    | n4 pfx he n keys ch =>
      exact reads_n4 (SmallSound.le hsound) hpfx fun i hi => hreads _ ⟨i, hi, rfl⟩
    | n16 pfx he n keys ch =>
      exact reads_n16 (SmallSound.le hsound) hpfx fun i hi => hreads _ ⟨i, hi, rfl⟩
    | n48 pfx he n idx ch =>
      exact reads_n48 (IndexSound.le hsound) hpfx (fun s _ => hreads _ ⟨s, rfl⟩) fun s hs =>
        IndexSound.isEmpty_of_le hsound hP hs
    | n256 pfx he n ch => exact reads_n256 hP hpfx fun b => hreads _ ⟨b, rfl⟩

end Node

namespace IndexTree

/-- The tree is written and read back: the same keys, count and bytes, and the same answers to all
    calls from here on. -/
def RoundTrips (t : IndexTree) : Prop :=
  ∃ bytes t' l, t.toBytes = some bytes ∧ fromBytes bytes = .ok t' ∧ t.keys = some l ∧
    t'.keys = some l ∧ t'.len = t.len ∧ t'.toBytes = some bytes ∧
    ∀ ops, t'.answers ops = t.answers ops

variable {t : IndexTree} {s : Finset Bytes}

/-- A root that is read back, with a counter that fits its field. -/
theorem exists_fromBytes (hroot : t.root.Reads) (hlen : t.len < 2 ^ 32) :
    ∃ bytes t', t.toBytes = some bytes ∧ fromBytes bytes = .ok t' ∧ Same t t' := by
  obtain ⟨front, y, hser, hsame, hread⟩ := hroot
  have hfield : (be 4 t.len).length = 4 := be_length 4 t.len
  refine ⟨be 4 t.len ++ front, ⟨y, t.len⟩, ?_, ?_, hsame, rfl⟩
  · rw [toBytes, hser, Option.map_some]
  · have hroot := hread (be 4 t.len ++ front).length [] (by rw [List.length_append]; omega)
    rw [List.append_nil] at hroot
    unfold fromBytes
    rw [if_neg (by rw [List.length_append]; omega), List.drop_left' hfield, List.take_left' hfield,
      ofBe_be (show t.len < 256 ^ 4 from hlen)]
    exact Runs.ok_bind.mpr ⟨_, hroot, rfl⟩

theorem Keeps.roundTrips (h : Keeps Node.Packed t s) (hreach : t.root.Reaches 255 0)
    (hlen : t.len < 2 ^ 32) : t.RoundTrips := by
  have hroot : t.root.Reads := by
    obtain hnil | hroot := h.root
    · rw [hnil]
      exact Node.reads_empty
    · exact hroot.reads hreach le_rfl
  obtain ⟨bytes, t', hto, hfrom, hsame⟩ := exists_fromBytes hroot hlen
  obtain ⟨l, hl, -⟩ := h.keys
  refine ⟨bytes, t', l, hto, hfrom, hl, ?_, hsame.len.symm, ?_, fun ops => (hsame.answers ops).symm⟩
  · rw [← hsame.keys]
    exact hl
  · rw [← hsame.toBytes]
    exact hto

end IndexTree

/-- A call that leaves the children of 48-nodes in the slots that are written, takes no child out of
    a 256-node, and whose keys the counter's field of 32 bits can count. -/
def SetOp.KeepsSlots (t : IndexTree) : SetOp → Prop
  | .insert key => t.root.AddsWithin (fun node _ => node.GrowsSafely) key ∧ t.len + 1 < 2 ^ 32
  | .remove key => t.root.DropsWithin Node.FreesLast key

theorem SetOp.KeepsSlots.allowed {t : IndexTree} {op : SetOp} (h : op.KeepsSlots t) :
    op.Allowed (fun node _ => node.GrowsSafely) Node.FreesLast t := by
  cases op with
  | insert key => exact h.1
  | remove key => exact h

/-- **Run**: the counter of keys stays within its field. -/
theorem card_lt_run {ops : List SetOp} (hrun : RunsWithin SetOp.KeepsSlots ops) :
    (setRun ops).1.card < 2 ^ 32 := by
  induction ops using List.reverseRecOn with
  | nil => decide
  | append_singleton ops op ih =>
    have hcard := ih hrun.init
    obtain ⟨t, ht, hkeeps⟩ := IndexTree.keeps_run Node.kept_packed
      (hrun.init.mono fun t op h => h.allowed)
    have hop := hrun.last ht
    have hlen := hkeeps.len
    rw [setRun_snoc]
    cases op with
    | insert key =>
      have hle := Finset.card_insert_le key (setRun ops).1
      have hroom := hop.2
      show (Insert.insert key (setRun ops).1).card < 2 ^ 32
      dsimp only at hroom
      omega
    | remove key =>
      have hle := Finset.card_erase_le (s := (setRun ops).1) (a := key)
      show ((setRun ops).1.erase key).card < 2 ^ 32
      omega

/-- **Round trips**: after every run of such calls with keys of at most 255 bytes the tree is read
    back as it was, and goes on as it would have. -/
theorem roundTrips_run {ops : List SetOp} (hkeys : ∀ key, .insert key ∈ ops → key.length ≤ 255)
    (hrun : RunsWithin SetOp.KeepsSlots ops) :
    ∃ t answers, treeRun ops = some (t, answers) ∧ t.RoundTrips := by
  obtain ⟨t, ht, hkeeps⟩ := IndexTree.keeps_run Node.kept_packed
    (hrun.mono fun t op h => h.allowed)
  refine ⟨t, _, ht, hkeeps.roundTrips (IndexTree.reaches_run ht hkeys) ?_⟩
  have hcard := card_lt_run hrun
  have hlen := hkeeps.len
  omega

theorem roundTrips_splitOps : ∃ t answers, treeRun splitOps = some (t, answers) ∧ t.RoundTrips := by
  refine roundTrips_run (fun key hkey => ?_) (runsWithin_splitOps ?_ ?_ fun r hr => ?_)
  · simp only [splitOps, List.mem_cons, SetOp.insert.injEq, reduceCtorEq, List.not_mem_nil,
      or_false] at hkey
    obtain rfl | rfl := hkey <;> decide
  · exact ⟨Node.addsWithin_of_not_inner rfl, by decide⟩
  · exact ⟨Node.addsWithin_of_not_inner rfl, by decide⟩
  · exact dropsWithin_splitCheck (fun _ _ _ _ _ => trivial) (splitCheck_of_treeRun hr)

/-- Eighteen keys fill the first slots of a 48-node, and the first of them goes. -/
def gapOps : List SetOp :=
  ((List.range 18).map fun i => .insert [UInt8.ofNat i]) ++ [.remove [0]]

/-- Whether a tree is read back with other keys. -/
def losesKeys (t : IndexTree) : Bool :=
  match t.toBytes.map IndexTree.fromBytes with
  | some (.ok t') => t'.keys != t.keys
  | _ => false

theorem not_roundTrips_of_losesKeys {t : IndexTree} (h : losesKeys t = true) : ¬t.RoundTrips := by
  rintro ⟨bytes, t', l, hto, hfrom, hl, hl', -⟩
  unfold losesKeys at h
  rw [hto, Option.map_some, hfrom] at h
  dsimp only at h
  rw [hl, hl', bne_self_eq_false] at h
  cases h

/-- The child in the last slot is behind the count and is not written. -/
theorem not_roundTrips_gapOps : (∀ key, .insert key ∈ gapOps → key.length ≤ 255) ∧
    ∃ t answers, treeRun gapOps = some (t, answers) ∧ ¬t.RoundTrips := by
  constructor
  · intro key hkey
    obtain ⟨i, -, heq⟩ := List.mem_map.mp ((List.mem_append.mp hkey).resolve_right (by simp))
    obtain rfl := SetOp.insert.inj heq
    exact Nat.le_of_lt_succ (by simp)
  · have hloses : (treeRun gapOps).any (fun r => losesKeys r.1) = true := by
      decide +kernel
    cases hr : treeRun gapOps with
    | none =>
      rw [hr] at hloses
      cases hloses
    | some r =>
      rw [hr] at hloses
      exact ⟨r.1, r.2, rfl, not_roundTrips_of_losesKeys hloses⟩

end Arkiv
