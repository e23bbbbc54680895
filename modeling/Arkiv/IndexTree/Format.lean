import Mathlib
import Arkiv.IndexTree.Codec
import Arkiv.Lib.Run

/-!
# The documents of the index tree

The byte format as a grammar, and that the decoder accepts exactly its documents:
the lengths and the counts of small nodes are all that it checks.

## Main definitions

- `Node.Format` — the encodings of one node with everything below it
- `IndexTree.Document` — a key count and a node
- `IndexTree.exists_fromBytes_iff` — what the decoder accepts
-/

namespace Arkiv

open ByteString

namespace Node

/-- A prefix and the flag behind it. -/
def pfxBytes (pfx : Bytes) (flag : UInt8) : Bytes := UInt8.ofNat pfx.length :: (pfx ++ [flag])

/-- The encodings of a node. A 48-node has no more children than slots, whatever its count says, and
    neither its count nor its index has to fit them. -/
inductive Format : Bytes → Prop
  | empty : Format [tagEmpty]
  | leaf (sfx : Bytes) (hsfx : sfx.length < 256 ^ 2) : Format (tagLeaf :: be 2 sfx.length ++ sfx)
  | small {cap : ℕ} {tag : UInt8} (hcap : tag = tagN4 ∧ cap = 4 ∨ tag = tagN16 ∧ cap = 16)
      {pfx : Bytes} (hpfx : pfx.length < 256) (flag : UInt8) {kids : List (UInt8 × Bytes)}
      (hkids : kids.length ≤ cap) (hkid : ∀ kid ∈ kids, Format kid.2) :
      Format (tag :: pfxBytes pfx flag ++ UInt8.ofNat kids.length ::
        kids.flatMap fun kid => kid.1 :: kid.2)
  | n48 {pfx : Bytes} (hpfx : pfx.length < 256) (flag n : UInt8) {idx : Bytes}
      (hidx : idx.length = 256) {kids : List Bytes} (hkids : kids.length = min n.toNat 48)
      (hkid : ∀ kid ∈ kids, Format kid) :
      Format (tagN48 :: pfxBytes pfx flag ++ n :: (idx ++ kids.flatten))
  | n256 {pfx : Bytes} (hpfx : pfx.length < 256) (flag : UInt8) {kids : List Bytes}
      (hkids : kids.length = 256) (hkid : ∀ kid ∈ kids, Format kid) :
      Format (tagN256 :: pfxBytes pfx flag ++ kids.flatten)

variable {data rest : Bytes} {ctx : String}

section Fields

theorem u8At_ok {b : UInt8} : u8At ctx data = .ok (b, rest) ↔ data = b :: rest := by
  cases data with
  | nil => simp [u8At]
  | cons c data => simp [u8At]

theorem u16At_ok {n : ℕ} : u16At ctx data = .ok (n, rest) ↔ n < 256 ^ 2 ∧ data = be 2 n ++ rest := by
  constructor
  · intro h
    match data, h with
    | b :: c :: data, h =>
      obtain ⟨rfl, rfl⟩ := Prod.mk.inj (Except.ok.inj h)
      refine ⟨ofBe_lt [b, c], ?_⟩
      rw [be_ofBe (show [b, c].length = 2 from rfl), List.cons_append, List.cons_append,
        List.nil_append]
  · rintro ⟨hn, rfl⟩
    obtain ⟨b, c, hbe⟩ := List.length_eq_two.mp (be_length 2 n)
    rw [hbe, List.cons_append, List.cons_append, List.nil_append, u16At, ← hbe, ofBe_be hn]

theorem sliceAt_ok {n : ℕ} {front : Bytes} :
    sliceAt n ctx data = .ok (front, rest) ↔ front.length = n ∧ data = front ++ rest := by
  unfold sliceAt
  split_ifs with hn
  · rw [Except.ok.injEq, Prod.mk.injEq]
    constructor
    · rintro ⟨rfl, rfl⟩
      exact ⟨List.length_take_of_le hn, (List.take_append_drop n data).symm⟩
    · rintro ⟨rfl, rfl⟩
      exact ⟨List.take_left, List.drop_left⟩
  · refine iff_of_false (by simp) ?_
    rintro ⟨rfl, rfl⟩
    exact hn (by simp)

theorem dePfx_ok {pfx : Bytes} {he : Bool} : dePfx data = .ok ((pfx, he), rest) ↔
    ∃ flag, pfx.length < 256 ∧ he = (flag != 0) ∧ data = pfxBytes pfx flag ++ rest := by
  unfold dePfx
  constructor
  · intro h
    obtain ⟨⟨len, r₁⟩, h₁, h⟩ := Runs.ok_bind.mp h
    obtain ⟨⟨front, r₂⟩, h₂, h⟩ := Runs.ok_bind.mp h
    obtain ⟨⟨flag, r₃⟩, h₃, h⟩ := Runs.ok_bind.mp h
    obtain ⟨hpair, rfl⟩ := Prod.mk.inj (Except.ok.inj h)
    obtain ⟨rfl, rfl⟩ := Prod.mk.inj hpair
    obtain rfl := u8At_ok.mp h₁
    obtain ⟨hlen, rfl⟩ := sliceAt_ok.mp h₂
    obtain rfl := u8At_ok.mp h₃
    refine ⟨flag, ?_, rfl, ?_⟩
    · rw [hlen]
      exact len.toNat_lt
    · rw [pfxBytes, hlen, UInt8.ofNat_toNat]
      simp
  · rintro ⟨flag, hpfx, rfl, rfl⟩
    refine Runs.ok_bind.mpr ⟨(UInt8.ofNat pfx.length, pfx ++ flag :: rest), ?_, ?_⟩
    · exact u8At_ok.mpr (by simp [pfxBytes])
    refine Runs.ok_bind.mpr ⟨(pfx, flag :: rest), sliceAt_ok.mpr ⟨?_, rfl⟩, ?_⟩
    · exact (UInt8.toNat_ofNat_of_lt' (show _ < 256 from hpfx)).symm
    · exact Runs.ok_bind.mpr ⟨(flag, rest), u8At_ok.mpr rfl, rfl⟩

end Fields

section Items

variable {α : Type} {item : Bytes → Except TreeError (α × Bytes)}

/-- What a row of items is read from. -/
theorem exists_of_deMany {P : Bytes → Prop}
    (hitem : ∀ data a rest, item data = .ok (a, rest) → ∃ front, data = front ++ rest ∧ P front)
    {n : ℕ} {as : List α} (h : deMany item n data = .ok (as, rest)) :
    ∃ fronts : List Bytes, fronts.length = n ∧ (∀ front ∈ fronts, P front) ∧ data = fronts.flatten ++ rest := by
  induction n generalizing data as with
  | zero =>
    obtain ⟨-, rfl⟩ := Prod.mk.inj (Except.ok.inj h)
    exact ⟨[], rfl, by simp, rfl⟩
  | succ n ih =>
    obtain ⟨⟨a, r₁⟩, h₁, h⟩ := Runs.ok_bind.mp h
    obtain ⟨⟨as', r₂⟩, h₂, h⟩ := Runs.ok_bind.mp h
    obtain ⟨-, rfl⟩ := Prod.mk.inj (Except.ok.inj h)
    obtain ⟨front, rfl, hfront⟩ := hitem _ _ _ h₁
    obtain ⟨fronts, hlen, hfronts, rfl⟩ := ih h₂
    refine ⟨front :: fronts, by rw [List.length_cons, hlen], ?_, ?_⟩
    · intro f hf
      obtain rfl | hf := List.mem_cons.mp hf
      · exact hfront
      · exact hfronts f hf
    · rw [List.flatten_cons, List.append_assoc]

/-- A row of items is read back. -/
theorem deMany_ok {fronts : List Bytes}
    (hitem : ∀ front ∈ fronts, ∀ rest, ∃ a, item (front ++ rest) = .ok (a, rest)) (rest : Bytes) :
    ∃ as, deMany item fronts.length (fronts.flatten ++ rest) = .ok (as, rest) := by
  induction fronts with
  | nil => exact ⟨[], rfl⟩
  | cons front fronts ih =>
    obtain ⟨a, ha⟩ := hitem front List.mem_cons_self (fronts.flatten ++ rest)
    obtain ⟨as, has⟩ := ih fun f hf => hitem f (List.mem_cons_of_mem _ hf)
    refine ⟨a :: as, ?_⟩
    rw [List.flatten_cons, List.append_assoc, List.length_cons]
    exact Runs.ok_bind.mpr ⟨_, ha, Runs.ok_bind.mpr ⟨_, has, rfl⟩⟩

end Items

section Nodes

variable {child : Bytes → Except TreeError (Node × Bytes)} {node : Node}

/-- What both small nodes are read by. -/
def deSmall (cap : ℕ) (tag : UInt8) (child : Bytes → Except TreeError (Node × Bytes))
    (mk : Bytes → Bool → ℕ → List (UInt8 × Node) → Node) (data : Bytes) :
    Except TreeError (Node × Bytes) := do
  let ((pfx, hasEnd), rest) ← dePfx data
  let (n, rest) ← u8At "n" rest
  if cap < n.toNat then .error (.tooManyChildren tag n.toNat cap)
  let (below, rest) ← deMany (deKeyed child) n.toNat rest
  return (mk pfx hasEnd n.toNat below, rest)

theorem deKeyed_ok {key : UInt8} : deKeyed child data = .ok ((key, node), rest) ↔
    ∃ r, data = key :: r ∧ child r = .ok (node, rest) := by
  unfold deKeyed
  constructor
  · intro h
    obtain ⟨⟨key', r⟩, h₁, h⟩ := Runs.ok_bind.mp h
    obtain ⟨⟨node', r'⟩, h₂, h⟩ := Runs.ok_bind.mp h
    obtain ⟨hpair, rfl⟩ := Prod.mk.inj (Except.ok.inj h)
    obtain ⟨rfl, rfl⟩ := Prod.mk.inj hpair
    exact ⟨r, u8At_ok.mp h₁, h₂⟩
  · rintro ⟨r, rfl, hchild⟩
    exact Runs.ok_bind.mpr ⟨_, rfl, Runs.ok_bind.mpr ⟨_, hchild, rfl⟩⟩

/-- A small node is read when its count fits. -/
theorem deSmall_ok {cap : ℕ} {tag : UInt8} {mk : Bytes → Bool → ℕ → List (UInt8 × Node) → Node} :
    deSmall cap tag child mk data = .ok (node, rest) ↔
      ∃ pfx he n below r r', dePfx data = .ok ((pfx, he), n :: r) ∧ n.toNat ≤ cap ∧
        deMany (deKeyed child) n.toNat r = .ok (below, r') ∧ node = mk pfx he n.toNat below ∧
        rest = r' := by
  unfold deSmall
  constructor
  · intro h
    obtain ⟨⟨⟨pfx, he⟩, r₁⟩, h₁, hcount⟩ := Runs.ok_bind.mp h
    obtain ⟨⟨n, r₂⟩, h₂, hkids⟩ := Runs.ok_bind.mp hcount
    rw [u8At_ok.mp h₂] at h₁
    dsimp only at hkids
    split_ifs at hkids with hn
    · cases hkids
    · obtain ⟨⟨below, r₃⟩, h₃, hnode⟩ := Runs.ok_bind.mp hkids
      obtain ⟨rfl, rfl⟩ := Prod.mk.inj (Except.ok.inj hnode)
      exact ⟨pfx, he, n, below, r₂, r₃, h₁, not_lt.mp hn, h₃, rfl, rfl⟩
  · rintro ⟨pfx, he, n, below, r, r', h₁, hn, h₃, rfl, rfl⟩
    refine Runs.ok_bind.mpr ⟨_, h₁, Runs.ok_bind.mpr ⟨_, u8At_ok.mpr rfl, ?_⟩⟩
    dsimp only
    rw [if_neg (not_lt.mpr hn)]
    exact Runs.ok_bind.mpr ⟨_, h₃, rfl⟩

theorem exists_kids {fronts : List Bytes}
    (h : ∀ front ∈ fronts, ∃ kid : UInt8 × Bytes, front = kid.1 :: kid.2 ∧ Format kid.2) :
    ∃ kids : List (UInt8 × Bytes), kids.length = fronts.length ∧
      kids.flatMap (fun kid => kid.1 :: kid.2) = fronts.flatten ∧ ∀ kid ∈ kids, Format kid.2 := by
  induction fronts with
  | nil => exact ⟨[], rfl, rfl, by simp⟩
  | cons front fronts ih =>
    obtain ⟨kid, rfl, hkid⟩ := h front List.mem_cons_self
    obtain ⟨kids, hlen, hflat, hkids⟩ := ih fun f hf => h f (List.mem_cons_of_mem _ hf)
    refine ⟨kid :: kids, by rw [List.length_cons, List.length_cons, hlen], ?_, ?_⟩
    · rw [List.flatMap_cons, List.flatten_cons, hflat]
    · intro k hk
      obtain rfl | hk := List.mem_cons.mp hk
      · exact hkid
      · exact hkids k hk

def mkN4 (pfx : Bytes) (hasEnd : Bool) (n : ℕ) (below : List (UInt8 × Node)) : Node :=
  n4 pfx hasEnd n (fun i => (below[i.val]?).elim 0 Prod.fst)
    (fun i => (below[i.val]?).elim Node.empty Prod.snd)

def mkN16 (pfx : Bytes) (hasEnd : Bool) (n : ℕ) (below : List (UInt8 × Node)) : Node :=
  n16 pfx hasEnd n (fun i => (below[i.val]?).elim 0 Prod.fst)
    (fun i => (below[i.val]?).elim Node.empty Prod.snd)

variable {fuel : ℕ} {r : Bytes}

theorem deNode_empty : deNode (fuel + 1) (tagEmpty :: r) = .ok (Node.empty, r) := rfl

theorem deNode_leaf : deNode (fuel + 1) (tagLeaf :: r) = (do
    let (len, rest) ← u16At "Leaf len" r
    let (sfx, rest) ← sliceAt len "Leaf data" rest
    return (Node.leaf sfx, rest)) := rfl

theorem deNode_n4 : deNode (fuel + 1) (tagN4 :: r) = deSmall 4 tagN4 (deNode fuel) mkN4 r := rfl

theorem deNode_n16 : deNode (fuel + 1) (tagN16 :: r) = deSmall 16 tagN16 (deNode fuel) mkN16 r :=
  rfl

theorem deNode_n48 : deNode (fuel + 1) (tagN48 :: r) = (do
    let ((pfx, hasEnd), rest) ← dePfx r
    let (n, rest) ← u8At "N48 n" rest
    let (idx, rest) ← sliceAt 256 "N48 index" rest
    let (below, rest) ← deMany (deNode fuel) (min n.toNat 48) rest
    return (n48 pfx hasEnd n.toNat (fun b => idx.getD b.toNat n48Nil)
      (fun i => below.getD i.val Node.empty), rest)) := rfl

theorem deNode_n256 : deNode (fuel + 1) (tagN256 :: r) = (do
    let ((pfx, hasEnd), rest) ← dePfx r
    let (below, rest) ← deMany (deNode fuel) 256 rest
    return (n256 pfx hasEnd (below.countP fun c => !c.isEmpty)
      (fun b => below.getD b.toNat Node.empty), rest)) := rfl

theorem deNode_unknown {tag : UInt8} (h₀ : tag ≠ tagEmpty) (h₁ : tag ≠ tagLeaf) (h₄ : tag ≠ tagN4)
    (h₁₆ : tag ≠ tagN16) (h₄₈ : tag ≠ tagN48) (h₂₅₆ : tag ≠ tagN256) :
    deNode (fuel + 1) (tag :: r) = .error (.unknownTag tag) := by
  rw [deNode]
  simp only [u8At]
  refine (if_neg h₀).trans ?_
  rw [if_neg h₁, if_neg h₄, if_neg h₁₆, if_neg h₄₈, if_neg h₂₅₆]

theorem format_of_deSmall {cap : ℕ} {tag : UInt8}
    {mk : Bytes → Bool → ℕ → List (UInt8 × Node) → Node}
    (hchild : ∀ data node rest, child data = .ok (node, rest) →
      ∃ front, data = front ++ rest ∧ Format front)
    (hcap : tag = tagN4 ∧ cap = 4 ∨ tag = tagN16 ∧ cap = 16)
    (h : deSmall cap tag child mk r = .ok (node, rest)) :
    ∃ front, tag :: r = front ++ rest ∧ Format front := by
  obtain ⟨pfx, he, n, below, r₁, r₂, hpfx, hn, hbelow, -, rfl⟩ := deSmall_ok.mp h
  obtain ⟨flag, hlen, -, rfl⟩ := dePfx_ok.mp hpfx
  have hkeyed : ∀ data (a : UInt8 × Node) rest, deKeyed child data = .ok (a, rest) →
      ∃ front, data = front ++ rest ∧
        ∃ kid : UInt8 × Bytes, front = kid.1 :: kid.2 ∧ Format kid.2 := by
    rintro data ⟨key, node⟩ rest hkeyed
    obtain ⟨r, rfl, hnode⟩ := deKeyed_ok.mp hkeyed
    obtain ⟨front, rfl, hfront⟩ := hchild _ _ _ hnode
    exact ⟨key :: front, rfl, (key, front), rfl, hfront⟩
  obtain ⟨fronts, hcount, hfronts, rfl⟩ := exists_of_deMany hkeyed hbelow
  obtain ⟨kids, hkids, hflat, hkid⟩ := exists_kids hfronts
  have hformat := Format.small hcap hlen flag (by omega) hkid
  rw [hkids, hcount, UInt8.ofNat_toNat, hflat] at hformat
  refine ⟨_, ?_, hformat⟩
  simp only [List.cons_append, List.append_assoc]

/-- **The decoder reads documents only.** -/
theorem format_of_deNode (h : deNode fuel data = .ok (node, rest)) :
    ∃ front, data = front ++ rest ∧ Format front := by
  induction fuel generalizing data node rest with
  | zero => cases h
  | succ fuel ih =>
    obtain ⟨⟨tag, r⟩, htag, -⟩ := Runs.ok_bind.mp h
    obtain rfl := u8At_ok.mp htag
    by_cases h₀ : tag = tagEmpty
    · subst h₀
      obtain ⟨rfl, rfl⟩ := Prod.mk.inj (Except.ok.inj (deNode_empty.symm.trans h))
      exact ⟨[tagEmpty], rfl, .empty⟩
    by_cases h₁ : tag = tagLeaf
    · subst h₁
      rw [deNode_leaf] at h
      obtain ⟨⟨len, r₁⟩, hlen, h⟩ := Runs.ok_bind.mp h
      obtain ⟨⟨sfx, r₂⟩, hsfx, h⟩ := Runs.ok_bind.mp h
      obtain ⟨-, rfl⟩ := Prod.mk.inj (Except.ok.inj h)
      obtain ⟨hlt, rfl⟩ := u16At_ok.mp hlen
      obtain ⟨rfl, hrest⟩ := sliceAt_ok.mp hsfx
      rw [hrest]
      exact ⟨_, by simp only [List.cons_append, List.append_assoc], .leaf sfx hlt⟩
    by_cases h₄ : tag = tagN4
    · subst h₄
      exact format_of_deSmall (fun _ _ _ => ih) (.inl ⟨rfl, rfl⟩) (deNode_n4.symm.trans h)
    by_cases h₁₆ : tag = tagN16
    · subst h₁₆
      exact format_of_deSmall (fun _ _ _ => ih) (.inr ⟨rfl, rfl⟩) (deNode_n16.symm.trans h)
    by_cases h₄₈ : tag = tagN48
    · subst h₄₈
      rw [deNode_n48] at h
      obtain ⟨⟨⟨pfx, he⟩, r₁⟩, hpfx, h⟩ := Runs.ok_bind.mp h
      obtain ⟨⟨n, r₂⟩, hn, h⟩ := Runs.ok_bind.mp h
      obtain ⟨⟨idx, r₃⟩, hidx, h⟩ := Runs.ok_bind.mp h
      obtain ⟨⟨below, r₄⟩, hbelow, h⟩ := Runs.ok_bind.mp h
      obtain ⟨-, rfl⟩ := Prod.mk.inj (Except.ok.inj h)
      obtain ⟨fronts, hcount, hfronts, hr₃⟩ := exists_of_deMany (fun _ _ _ => ih) hbelow
      obtain ⟨hlen, hr₂⟩ := sliceAt_ok.mp hidx
      obtain ⟨flag, hshort, -, rfl⟩ := dePfx_ok.mp hpfx
      refine ⟨_, ?_, .n48 hshort flag n hlen hcount hfronts⟩
      have hr₁ := u8At_ok.mp hn
      rw [hr₁, hr₂, hr₃]
      simp only [List.cons_append, List.append_assoc]
    by_cases h₂₅₆ : tag = tagN256
    · subst h₂₅₆
      rw [deNode_n256] at h
      obtain ⟨⟨⟨pfx, he⟩, r₁⟩, hpfx, h⟩ := Runs.ok_bind.mp h
      obtain ⟨⟨below, r₂⟩, hbelow, h⟩ := Runs.ok_bind.mp h
      obtain ⟨-, rfl⟩ := Prod.mk.inj (Except.ok.inj h)
      obtain ⟨fronts, hcount, hfronts, hr₁⟩ := exists_of_deMany (fun _ _ _ => ih) hbelow
      obtain ⟨flag, hshort, -, rfl⟩ := dePfx_ok.mp hpfx
      refine ⟨_, ?_, .n256 hshort flag hcount hfronts⟩
      rw [hr₁]
      simp only [List.cons_append, List.append_assoc]
    · rw [deNode_unknown h₀ h₁ h₄ h₁₆ h₄₈ h₂₅₆] at h
      cases h

theorem deSmall_of_format {cap : ℕ} {tag : UInt8}
    {mk : Bytes → Bool → ℕ → List (UInt8 × Node) → Node} (hcap : cap < 256) {pfx : Bytes}
    (hpfx : pfx.length < 256) (flag : UInt8) {kids : List (UInt8 × Bytes)}
    (hkids : kids.length ≤ cap)
    (hkid : ∀ kid ∈ kids, ∀ rest, ∃ node, child (kid.2 ++ rest) = .ok (node, rest)) :
    ∃ node, deSmall cap tag child mk (pfxBytes pfx flag ++ UInt8.ofNat kids.length ::
      ((kids.flatMap fun kid => kid.1 :: kid.2) ++ rest)) = .ok (node, rest) := by
  have hcount : (UInt8.ofNat kids.length).toNat = kids.length :=
    UInt8.toNat_ofNat_of_lt' (show _ < 256 by omega)
  have hitem : ∀ front ∈ kids.map fun kid => kid.1 :: kid.2, ∀ rest,
      ∃ a, deKeyed child (front ++ rest) = .ok (a, rest) := by
    intro front hfront rest
    obtain ⟨kid, hmem, rfl⟩ := List.mem_map.mp hfront
    obtain ⟨node, hnode⟩ := hkid kid hmem rest
    exact ⟨(kid.1, node), deKeyed_ok.mpr ⟨_, rfl, hnode⟩⟩
  obtain ⟨below, hbelow⟩ := deMany_ok hitem rest
  rw [List.length_map, ← List.flatMap_def] at hbelow
  refine ⟨_, deSmall_ok.mpr ⟨pfx, _, _, below, _, _, dePfx_ok.mpr ⟨flag, hpfx, rfl, rfl⟩, ?_, ?_,
    rfl, rfl⟩⟩
  · rw [hcount]
    exact hkids
  · rw [hcount]
    exact hbelow

theorem length_le_flatten {kids : List Bytes} {kid : Bytes} (h : kid ∈ kids) :
    kid.length ≤ kids.flatten.length :=
  (List.sublist_flatten_of_mem h).length_le

/-- **The decoder reads every document**, given a level of fuel a byte. -/
theorem deNode_of_format {front : Bytes} (h : Format front) (hfuel : front.length ≤ fuel)
    (rest : Bytes) : ∃ node, deNode fuel (front ++ rest) = .ok (node, rest) := by
  induction h generalizing fuel rest with
  | empty =>
    obtain ⟨fuel, rfl⟩ := Nat.exists_eq_succ_of_ne_zero (Nat.ne_of_gt hfuel)
    exact ⟨_, deNode_empty⟩
  | leaf sfx hsfx =>
    obtain ⟨fuel, rfl⟩ := Nat.exists_eq_succ_of_ne_zero (Nat.ne_of_gt (Nat.zero_lt_of_lt hfuel))
    refine ⟨.leaf sfx, ?_⟩
    rw [List.cons_append, List.cons_append, List.append_assoc, deNode_leaf]
    exact Runs.ok_bind.mpr ⟨_, u16At_ok.mpr ⟨hsfx, rfl⟩,
      Runs.ok_bind.mpr ⟨_, sliceAt_ok.mpr ⟨rfl, rfl⟩, rfl⟩⟩
  | @small cap tag hcap pfx hpfx flag kids hkids hkid ih =>
    obtain ⟨fuel, rfl⟩ := Nat.exists_eq_succ_of_ne_zero (Nat.ne_of_gt (Nat.zero_lt_of_lt hfuel))
    have hchild : ∀ kid ∈ kids, ∀ rest, ∃ node, deNode fuel (kid.2 ++ rest) = .ok (node, rest) := by
      intro kid hmem rest
      refine ih kid hmem ?_ rest
      have hle := length_le_flatten
        (List.mem_map_of_mem (f := fun kid : UInt8 × Bytes => kid.1 :: kid.2) hmem)
      rw [← List.flatMap_def] at hle
      simp only [List.length_cons, List.length_append, pfxBytes] at hfuel hle
      omega
    simp only [List.cons_append, List.append_assoc]
    obtain ⟨rfl, rfl⟩ | ⟨rfl, rfl⟩ := hcap
    · rw [deNode_n4]
      exact deSmall_of_format (by decide) hpfx flag hkids hchild
    · rw [deNode_n16]
      exact deSmall_of_format (by decide) hpfx flag hkids hchild
  | @n48 pfx hpfx flag n idx hidx kids hkids hkid ih =>
    obtain ⟨fuel, rfl⟩ := Nat.exists_eq_succ_of_ne_zero (Nat.ne_of_gt (Nat.zero_lt_of_lt hfuel))
    have hchild : ∀ kid ∈ kids, ∀ rest, ∃ node, deNode fuel (kid ++ rest) = .ok (node, rest) := by
      intro kid hmem rest
      refine ih kid hmem ?_ rest
      have hle := length_le_flatten hmem
      simp only [List.length_cons, List.length_append, pfxBytes] at hfuel hle
      omega
    obtain ⟨below, hbelow⟩ := deMany_ok hchild rest
    rw [hkids] at hbelow
    simp only [List.cons_append, List.append_assoc]
    rw [deNode_n48]
    exact ⟨_, Runs.ok_bind.mpr ⟨_, dePfx_ok.mpr ⟨flag, hpfx, rfl, rfl⟩,
      Runs.ok_bind.mpr ⟨_, u8At_ok.mpr rfl, Runs.ok_bind.mpr ⟨_, sliceAt_ok.mpr ⟨hidx, rfl⟩,
        Runs.ok_bind.mpr ⟨_, hbelow, rfl⟩⟩⟩⟩⟩
  | @n256 pfx hpfx flag kids hkids hkid ih =>
    obtain ⟨fuel, rfl⟩ := Nat.exists_eq_succ_of_ne_zero (Nat.ne_of_gt (Nat.zero_lt_of_lt hfuel))
    have hchild : ∀ kid ∈ kids, ∀ rest, ∃ node, deNode fuel (kid ++ rest) = .ok (node, rest) := by
      intro kid hmem rest
      refine ih kid hmem ?_ rest
      have hle := length_le_flatten hmem
      simp only [List.length_cons, List.length_append, pfxBytes] at hfuel hle
      omega
    obtain ⟨below, hbelow⟩ := deMany_ok hchild rest
    rw [hkids] at hbelow
    simp only [List.cons_append, List.append_assoc]
    rw [deNode_n256]
    exact ⟨_, Runs.ok_bind.mpr ⟨_, dePfx_ok.mpr ⟨flag, hpfx, rfl, rfl⟩,
      Runs.ok_bind.mpr ⟨_, hbelow, rfl⟩⟩⟩

end Nodes

end Node

namespace IndexTree

/-- A key count of four bytes and the encoding of a node. -/
def Document (data : Bytes) : Prop := 4 ≤ data.length ∧ Node.Format (data.drop 4)

/-- **The decoder accepts the documents**, and takes their key count for the length. -/
theorem exists_fromBytes_iff {data : Bytes} :
    (∃ t, fromBytes data = .ok t) ↔ Document data := by
  unfold fromBytes Document
  split_ifs with hshort
  · exact iff_of_false (by simp) fun h => absurd h.1 (not_le.mpr hshort)
  rw [and_iff_right (not_lt.mp hshort)]
  constructor
  · rintro ⟨t, h⟩
    obtain ⟨⟨root, rest⟩, hroot, hend⟩ := Runs.ok_bind.mp h
    obtain ⟨front, hfront, hformat⟩ := Node.format_of_deNode hroot
    dsimp only at hend
    split_ifs at hend with hrest
    · cases hend
    · rw [hfront, not_not.mp hrest, List.append_nil]
      exact hformat
  · intro h
    have hfuel : (data.drop 4).length ≤ data.length := by simp
    obtain ⟨root, hroot⟩ := Node.deNode_of_format h hfuel []
    rw [List.append_nil] at hroot
    exact ⟨_, Runs.ok_bind.mpr ⟨_, hroot, rfl⟩⟩

end IndexTree

end Arkiv
