import Mathlib
import Arkiv.Lib.Bytes

/-!
# The adaptive radix tree

The ordered set of byte strings behind the tier-2 index: nodes of four sizes
with path-compressed prefixes, inserted into and removed from in place. An
index outside an array, a failed `expect` and the `panic!` branches are `none`.

## Main definitions

- `Node` — leaves and the four kinds of inner node
- `insertNode`, `removeNode` — the recursive updates; `key` is what the path has
  not yet consumed
- `IndexTree` — the root and the key counter
- `Node.collectAll` — the keys in depth-first order
-/

namespace Arkiv

open ByteString

/-- The tree's nodes. Slots of `keys` and `ch` from `n` on are not looked at, except that a
    slot of a 48-node counts as free when its child is empty. -/
inductive Node where
  | empty
  | leaf (sfx : Bytes)
  | n4 (pfx : Bytes) (hasEnd : Bool) (n : ℕ) (keys : Fin 4 → UInt8) (ch : Fin 4 → Node)
  | n16 (pfx : Bytes) (hasEnd : Bool) (n : ℕ) (keys : Fin 16 → UInt8) (ch : Fin 16 → Node)
  | n48 (pfx : Bytes) (hasEnd : Bool) (n : ℕ) (idx : UInt8 → UInt8) (ch : Fin 48 → Node)
  | n256 (pfx : Bytes) (hasEnd : Bool) (n : ℕ) (ch : UInt8 → Node)

namespace Node

instance : Inhabited Node := ⟨empty⟩

/-- The index entry of a byte without a child. -/
def n48Nil : UInt8 := 0xFF

/-- The bytes from 0 to 255. -/
def allBytes : List UInt8 := (List.range 256).map UInt8.ofNat

def isEmpty : Node → Bool
  | empty => true
  | _ => false

def isInner : Node → Bool
  | empty => false
  | leaf _ => false
  | _ => true

def n4Empty (pfx : Bytes) (hasEnd : Bool) : Node := n4 pfx hasEnd 0 (fun _ => 0) fun _ => empty

section Arrays

variable {cap : ℕ} {α : Type}

/-- The slot of `b` among the first `n` keys. -/
def findKey (n : ℕ) (keys : Fin cap → UInt8) (b : UInt8) : Option (Fin cap) :=
  (List.finRange cap).find? fun i => i.val < n && keys i == b

/-- Where `b` goes among the first `n` keys. -/
def insertPos (n : ℕ) (keys : Fin cap → UInt8) (b : UInt8) : ℕ :=
  ((List.finRange cap).takeWhile fun i => i.val < n && keys i < b).length

/-- Slots `pos .. n` move up by one and `x` takes the place at `pos`. -/
def shiftIn (pos n : ℕ) (x : α) (f : Fin cap → α) : Fin cap → α := fun i =>
  if i.val < pos then f i
  else if i.val = pos then x
  else if i.val ≤ n then f ⟨i.val - 1, by omega⟩
  else f i

/-- Slots `pos + 1 .. n` move down by one. -/
def shiftOut (pos n : ℕ) (f : Fin cap → α) : Fin cap → α := fun i =>
  if h : pos ≤ i.val ∧ i.val + 1 < n ∧ i.val + 1 < cap then f ⟨i.val + 1, h.2.2⟩ else f i

end Arrays

def n4ToN16 (pfx : Bytes) (hasEnd : Bool) (n : ℕ) (keys : Fin 4 → UInt8) (ch : Fin 4 → Node) :
    Node :=
  n16 pfx hasEnd n (fun i => if h : i.val < n ∧ i.val < 4 then keys ⟨i, h.2⟩ else 0)
    fun i => if h : i.val < 4 then ch ⟨i, h⟩ else empty

def n16ToN48 (pfx : Bytes) (hasEnd : Bool) (n : ℕ) (keys : Fin 16 → UInt8)
    (ch : Fin 16 → Node) : Node :=
  n48 pfx hasEnd n
    (fun b =>
      match ((List.finRange 16).filter fun i => i.val < n && keys i == b).getLast? with
      | some i => UInt8.ofNat i.val
      | none => n48Nil)
    fun s => if h : s.val < n ∧ s.val < 16 then ch ⟨s, h.2⟩ else empty

/-- The byte that `slot_byte` holds for a slot: the last one whose entry is the slot. -/
def slotByte (idx : UInt8 → UInt8) (slot : Fin 48) : UInt8 :=
  ((allBytes.filter fun b => idx b == UInt8.ofNat slot.val).getLast?).getD n48Nil

/-- Every index entry is absent or names one of the 48 slots. -/
def slotsInRange (idx : UInt8 → UInt8) : Bool :=
  allBytes.all fun b => idx b == n48Nil || (idx b).toNat < 48

/-- `slot_byte` marks its unused entries with `N48_NIL`, which is also the byte `0xFF`. -/
def n48ToN256 (pfx : Bytes) (hasEnd : Bool) (n : ℕ) (idx : UInt8 → UInt8) (ch : Fin 48 → Node) :
    Option Node :=
  if slotsInRange idx then
    some <| n256 pfx hasEnd n fun b =>
      match (List.finRange 48).find? fun s => slotByte idx s != n48Nil && slotByte idx s == b with
      | some s => ch s
      | none => empty
  else none

def n16ToN4 (pfx : Bytes) (hasEnd : Bool) (n : ℕ) (keys : Fin 16 → UInt8) (ch : Fin 16 → Node) :
    Node :=
  n4 pfx hasEnd n (fun i => if i.val < n then keys ⟨i, by omega⟩ else 0)
    fun i => if i.val < n then ch ⟨i, by omega⟩ else empty

/-- The bytes with an index entry, in ascending order. -/
def usedBytes (idx : UInt8 → UInt8) : List UInt8 := allBytes.filter fun b => idx b != n48Nil

/-- A child is taken out of its slot by the first byte that names the slot. -/
def n48ToN16 (pfx : Bytes) (hasEnd : Bool) (n : ℕ) (idx : UInt8 → UInt8) (ch : Fin 48 → Node) :
    Option Node :=
  let bytes := usedBytes idx
  if slotsInRange idx && bytes.length ≤ 16 then
    some <| n16 pfx hasEnd n (fun i => bytes.getD i 0) fun i =>
      match bytes[i.val]? with
      | none => empty
      | some b =>
        if (bytes.take i).any fun c => idx c == idx b then empty
        else if h : (idx b).toNat < 48 then ch ⟨(idx b).toNat, h⟩ else empty
  else none

/-- The bytes with a child, in ascending order. -/
def fullBytes (ch : UInt8 → Node) : List UInt8 := allBytes.filter fun b => !(ch b).isEmpty

def n256ToN48 (pfx : Bytes) (hasEnd : Bool) (n : ℕ) (ch : UInt8 → Node) : Option Node :=
  let bytes := fullBytes ch
  if bytes.length ≤ 48 then
    some <| n48 pfx hasEnd (n % 256)
      (fun b => if b ∈ bytes then UInt8.ofNat (bytes.idxOf b) else n48Nil)
      fun s => (bytes[s.val]?).elim empty ch
  else none

def nodePrefix : Node → Bytes
  | n4 pfx _ _ _ _ => pfx
  | n16 pfx _ _ _ _ => pfx
  | n48 pfx _ _ _ _ => pfx
  | n256 pfx _ _ _ => pfx
  | _ => []

def setPrefix (pfx : Bytes) : Node → Node
  | n4 _ he n keys ch => n4 pfx he n keys ch
  | n16 _ he n keys ch => n16 pfx he n keys ch
  | n48 _ he n idx ch => n48 pfx he n idx ch
  | n256 _ he n ch => n256 pfx he n ch
  | node => node

def nodeHasEnd : Node → Bool
  | n4 _ he _ _ _ => he
  | n16 _ he _ _ _ => he
  | n48 _ he _ _ _ => he
  | n256 _ he _ _ => he
  | _ => false

def setHasEnd (he : Bool) : Node → Node
  | n4 pfx _ n keys ch => n4 pfx he n keys ch
  | n16 pfx _ n keys ch => n16 pfx he n keys ch
  | n48 pfx _ n idx ch => n48 pfx he n idx ch
  | n256 pfx _ n ch => n256 pfx he n ch
  | node => node

/-- The child that `node_has_child` and `node_child_mut` find under a byte. -/
def nodeChild (b : UInt8) : Node → Option Node
  | n4 _ _ n keys ch => (findKey n keys b).map ch
  | n16 _ _ n keys ch => (findKey n keys b).map ch
  | n48 _ _ _ idx ch => if h : (idx b).toNat < 48 then some (ch ⟨(idx b).toNat, h⟩) else none
  | n256 _ _ _ ch => if (ch b).isEmpty then none else some (ch b)
  | _ => none

/-- The child under a byte that has one is replaced in its slot. -/
def setChild (b : UInt8) (c : Node) : Node → Node
  | n4 pfx he n keys ch =>
    match findKey n keys b with
    | some i => n4 pfx he n keys (Function.update ch i c)
    | none => n4 pfx he n keys ch
  | n16 pfx he n keys ch =>
    match findKey n keys b with
    | some i => n16 pfx he n keys (Function.update ch i c)
    | none => n16 pfx he n keys ch
  | n48 pfx he n idx ch =>
    if h : (idx b).toNat < 48 then n48 pfx he n idx (Function.update ch ⟨(idx b).toNat, h⟩ c)
    else n48 pfx he n idx ch
  | n256 pfx he n ch => n256 pfx he n (Function.update ch b c)
  | node => node

def nodeChildIsEmpty (b : UInt8) (node : Node) : Bool := (node.nodeChild b).elim true isEmpty

def nodeAddChild (node : Node) (b : UInt8) (child : Node) : Option Node :=
  match node with
  | n4 pfx he n keys ch =>
    let pos := insertPos n keys b
    if n < 4 then some (n4 pfx he (n + 1) (shiftIn pos n b keys) (shiftIn pos n child ch)) else none
  | n16 pfx he n keys ch =>
    let pos := insertPos n keys b
    if n < 16 then some (n16 pfx he (n + 1) (shiftIn pos n b keys) (shiftIn pos n child ch))
    else none
  | n48 pfx he n idx ch =>
    -- The first empty child marks the free slot; there is none in a full node.
    ((List.finRange 48).find? fun s => (ch s).isEmpty).map fun s =>
      n48 pfx he ((n + 1) % 256) (Function.update idx b (UInt8.ofNat s.val))
        (Function.update ch s child)
  | n256 pfx he n ch => some (n256 pfx he ((n + 1) % 65536) (Function.update ch b child))
  | node => some node

def nodeDelChild (b : UInt8) : Node → Option Node
  | n4 pfx he n keys ch =>
    match findKey n keys b with
    | none => some (n4 pfx he n keys ch)
    | some pos =>
      some <| n4 pfx he (n - 1) (shiftOut pos n keys) fun i =>
        if i.val + 1 = n then empty else shiftOut pos n ch i
  | n16 pfx he n keys ch =>
    match findKey n keys b with
    | none => some (n16 pfx he n keys ch)
    | some pos =>
      some <| n16 pfx he (n - 1) (shiftOut pos n keys) fun i =>
        if i.val + 1 = n then empty else shiftOut pos n ch i
  | n48 pfx he n idx ch =>
    if idx b = n48Nil then some (n48 pfx he n idx ch)
    else if h : (idx b).toNat < 48 then
      some <| n48 pfx he ((n + 255) % 256) (Function.update idx b n48Nil)
        (Function.update ch ⟨(idx b).toNat, h⟩ empty)
    else none
  | n256 pfx he n ch =>
    if (ch b).isEmpty then some (n256 pfx he n ch)
    else some (n256 pfx he ((n + 65535) % 65536) (Function.update ch b empty))
  | node => some node

def nodeNChildren : Node → ℕ
  | n4 _ _ n _ _ => n
  | n16 _ _ n _ _ => n
  | n48 _ _ n _ _ => n
  | n256 _ _ n _ => n
  | _ => 0

def nodeMaybeGrow : Node → Option Node
  | n4 pfx he n keys ch =>
    if n = 4 then some (n4ToN16 pfx he n keys ch) else some (n4 pfx he n keys ch)
  | n16 pfx he n keys ch =>
    if n = 16 then some (n16ToN48 pfx he n keys ch) else some (n16 pfx he n keys ch)
  | n48 pfx he n idx ch =>
    if n = 48 then n48ToN256 pfx he n idx ch else some (n48 pfx he n idx ch)
  | node => some node

/-- `parent_pfx + branch_b` goes in front of what the child holds. -/
def prependInto (parentPfx : Bytes) (branchB : UInt8) : Node → Node
  | leaf sfx => leaf (parentPfx ++ branchB :: sfx)
  | empty => empty
  | child => child.setPrefix (parentPfx ++ branchB :: child.nodePrefix)

def nodeMaybeShrink (node : Node) : Option Node :=
  if node.nodeNChildren = 0 ∧ node.nodeHasEnd = false then some empty
  else
    match node with
    | n4 pfx he n keys ch =>
      if n = 1 ∧ he = false then some (prependInto pfx (keys 0) (ch 0))
      else some (n4 pfx he n keys ch)
    | n16 pfx he n keys ch =>
      if n ≤ 4 then some (n16ToN4 pfx he n keys ch) else some (n16 pfx he n keys ch)
    | n48 pfx he n idx ch =>
      if n ≤ 16 then n48ToN16 pfx he n idx ch else some (n48 pfx he n idx ch)
    | n256 pfx he n ch =>
      if n ≤ 48 then n256ToN48 pfx he n ch else some (n256 pfx he n ch)
    | node => some node

def commonPrefix : Bytes → Bytes → ℕ
  | x :: xs, y :: ys => if x = y then commonPrefix xs ys + 1 else 0
  | _, _ => 0

/-- A leaf meets a new key: equal suffixes change nothing, others split at the first
    difference. -/
def insertLeaf (existingSfx newSfx : Bytes) : Option (Node × Bool) :=
  if existingSfx = newSfx then some (leaf existingSfx, false)
  else
    let common := commonPrefix existingSfx newSfx
    let pfx := existingSfx.take common
    match existingSfx.drop common, newSfx.drop common with
    | b :: sfx2, c :: rest =>
      ((n4Empty pfx false).nodeAddChild b (leaf sfx2)).bind fun node =>
        (node.nodeAddChild c (leaf rest)).map (·, true)
    | b :: sfx2, [] => ((n4Empty pfx false).nodeAddChild b (leaf sfx2)).map fun node =>
        (node.setHasEnd true, true)
    | [], c :: rest => ((n4Empty pfx true).nodeAddChild c (leaf rest)).map (·, true)
    | [], [] => some (leaf existingSfx, false)

/-- A key leaves the node's prefix after `matched` bytes: a new `Node4` takes the node's place. -/
def splitPrefix (node : Node) (matched : ℕ) (key : Bytes) : Option (Node × Bool) :=
  match node.nodePrefix.drop matched with
  | [] => none
  | branchB :: restPfx =>
    let splitPfx := node.nodePrefix.take matched
    ((n4Empty splitPfx false).nodeAddChild branchB (node.setPrefix restPfx)).bind fun n4 =>
      match key.drop matched with
      | c :: rest => (n4.nodeAddChild c (leaf rest)).map (·, true)
      | [] => some (n4.setHasEnd true, true)

/-- The inner-node branch of `insert_node`; `recurse` inserts into the child under a byte and
    is `none` where there is no child. -/
def insertInner (node : Node) (key : Bytes)
    (recurse : UInt8 → Bytes → Option (Option (Node × Bool))) : Option (Node × Bool) :=
  let matched := commonPrefix node.nodePrefix key
  if matched < node.nodePrefix.length then splitPrefix node matched key
  else
    match key.drop node.nodePrefix.length with
    | [] => if node.nodeHasEnd then some (node, false) else some (node.setHasEnd true, true)
    | b :: rest =>
      match recurse b rest with
      | some result => result
      | none =>
        -- Grown first, so that the node has room for one more child.
        node.nodeMaybeGrow.bind fun grown => (grown.nodeAddChild b (leaf rest)).map (·, true)

def insertNode : Node → Bytes → Option (Node × Bool)
  | empty, key => some (leaf key, true)
  | leaf sfx, key => insertLeaf sfx key
  | n4 pfx he n keys ch, key =>
    insertInner (n4 pfx he n keys ch) key fun b rest =>
      (findKey n keys b).map fun i =>
        (insertNode (ch i) rest).map fun (c, new) =>
          (n4 pfx he n keys (Function.update ch i c), new)
  | n16 pfx he n keys ch, key =>
    insertInner (n16 pfx he n keys ch) key fun b rest =>
      (findKey n keys b).map fun i =>
        (insertNode (ch i) rest).map fun (c, new) =>
          (n16 pfx he n keys (Function.update ch i c), new)
  | n48 pfx he n idx ch, key =>
    insertInner (n48 pfx he n idx ch) key fun b rest =>
      if idx b = n48Nil then none
      else if h : (idx b).toNat < 48 then
        some <| (insertNode (ch ⟨(idx b).toNat, h⟩) rest).map fun (c, new) =>
          (n48 pfx he n idx (Function.update ch ⟨(idx b).toNat, h⟩ c), new)
      -- An index past the 48 slots panics.
      else some none
  | n256 pfx he n ch, key =>
    insertInner (n256 pfx he n ch) key fun b rest =>
      if (ch b).isEmpty then none
      else
        some <| (insertNode (ch b) rest).map fun (c, new) =>
          (n256 pfx he n (Function.update ch b c), new)

/-- The inner-node branch of `remove_node`; a child that became empty leaves the node. -/
def removeInner (node : Node) (key : Bytes)
    (recurse : UInt8 → Bytes → Option (Option (Node × Bool))) : Option (Node × Bool) :=
  if commonPrefix node.nodePrefix key < node.nodePrefix.length then some (node, false)
  else
    match key.drop node.nodePrefix.length with
    | [] =>
      if node.nodeHasEnd then (node.setHasEnd false).nodeMaybeShrink.map (·, true)
      else some (node, false)
    | b :: rest =>
      match recurse b rest with
      | none => some (node, false)
      -- The panic of a recursive call.
      | some none => none
      | some (some (node', removed)) =>
        if removed && node'.nodeChildIsEmpty b then
          (node'.nodeDelChild b).bind fun del => del.nodeMaybeShrink.map (·, true)
        else some (node', removed)

def removeNode : Node → Bytes → Option (Node × Bool)
  | empty, _ => some (empty, false)
  | leaf sfx, key => if sfx = key then some (empty, true) else some (leaf sfx, false)
  | n4 pfx he n keys ch, key =>
    removeInner (n4 pfx he n keys ch) key fun b rest =>
      (findKey n keys b).map fun i =>
        (removeNode (ch i) rest).map fun (c, gone) =>
          (n4 pfx he n keys (Function.update ch i c), gone)
  | n16 pfx he n keys ch, key =>
    removeInner (n16 pfx he n keys ch) key fun b rest =>
      (findKey n keys b).map fun i =>
        (removeNode (ch i) rest).map fun (c, gone) =>
          (n16 pfx he n keys (Function.update ch i c), gone)
  | n48 pfx he n idx ch, key =>
    removeInner (n48 pfx he n idx ch) key fun b rest =>
      if idx b = n48Nil then none
      else if h : (idx b).toNat < 48 then
        some <| (removeNode (ch ⟨(idx b).toNat, h⟩) rest).map fun (c, gone) =>
          (n48 pfx he n idx (Function.update ch ⟨(idx b).toNat, h⟩ c), gone)
      else some none
  | n256 pfx he n ch, key =>
    removeInner (n256 pfx he n ch) key fun b rest =>
      if (ch b).isEmpty then none
      else
        some <| (removeNode (ch b) rest).map fun (c, gone) =>
          (n256 pfx he n (Function.update ch b c), gone)

/-- The keys below a node, each with `path` in front, in depth-first order. -/
def collectAll : Node → Bytes → Option (List Bytes)
  | empty, _ => some []
  | leaf sfx, path => some [path ++ sfx]
  | n4 pfx he n keys ch, path =>
    (((List.finRange 4).filter (·.val < n)).mapM fun i =>
        collectAll (ch i) (path ++ pfx ++ [keys i])).map fun below =>
      (if he then [path ++ pfx] else []) ++ below.flatten
  | n16 pfx he n keys ch, path =>
    (((List.finRange 16).filter (·.val < n)).mapM fun i =>
        collectAll (ch i) (path ++ pfx ++ [keys i])).map fun below =>
      (if he then [path ++ pfx] else []) ++ below.flatten
  | n48 pfx he _ idx ch, path =>
    (allBytes.mapM fun b =>
        if idx b = n48Nil then some []
        else if h : (idx b).toNat < 48 then
          collectAll (ch ⟨(idx b).toNat, h⟩) (path ++ pfx ++ [b])
        else none).map fun below =>
      (if he then [path ++ pfx] else []) ++ below.flatten
  | n256 pfx he _ ch, path =>
    (allBytes.mapM fun b => collectAll (ch b) (path ++ pfx ++ [b])).map fun below =>
      (if he then [path ++ pfx] else []) ++ below.flatten

end Node

/-- The root with the number of keys, a 64-bit counter. -/
structure IndexTree where
  root : Node
  len : ℕ

namespace IndexTree

def new : IndexTree := ⟨.empty, 0⟩

def isEmpty (t : IndexTree) : Bool := t.len == 0

def insert (t : IndexTree) (key : Bytes) : Option (IndexTree × Bool) :=
  (t.root.insertNode key).map fun (root, new) =>
    if new then (⟨root, (t.len + 1) % 2 ^ 64⟩, true) else (⟨root, t.len⟩, false)

def remove (t : IndexTree) (key : Bytes) : Option (IndexTree × Bool) :=
  (t.root.removeNode key).map fun (root, gone) =>
    if gone then (⟨root, (t.len + 2 ^ 64 - 1) % 2 ^ 64⟩, true) else (⟨root, t.len⟩, false)

/-- The keys that the iterators run over. -/
def keys (t : IndexTree) : Option (List Bytes) := t.root.collectAll []

end IndexTree

end Arkiv
