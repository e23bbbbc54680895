import Mathlib
import Arkiv.IndexTree.Node

/-!
# The byte format of the index tree

```text
Tree    := COUNT:u32-BE  Node
Node    := 0x00                                           (absent)
         | 0x01  LEN:u16-BE  suffix:LEN                  (Leaf)
         | 0x02  PFX  HAS:u8  N:u8  (KEY:u8 Node)×N     (Node4)
         | 0x03  PFX  HAS:u8  N:u8  (KEY:u8 Node)×N     (Node16)
         | 0x04  PFX  HAS:u8  N:u8  IDX:u8[256] Node×N  (Node48)
         | 0x05  PFX  HAS:u8  Node×256                   (Node256)
PFX     := PFX_LEN:u8  PFX_LEN bytes
```

Decoders read from the front of what is left of the data and return the rest.

## Main definitions

- `Node.serNode`, `Node.deNode` — one node with everything below it
- `IndexTree.toBytes`, `IndexTree.fromBytes` — the whole tree
-/

namespace Arkiv

open ByteString

/-- The errors of `from_bytes`. -/
inductive TreeError where
  | tooShort (bytes : ℕ)
  | truncated (ctx : String)
  | tooManyChildren (tag : UInt8) (n : ℕ) (limit : ℕ)
  | unknownTag (tag : UInt8)
  | trailingBytes (n : ℕ)
deriving DecidableEq, Repr

namespace Node

def tagEmpty : UInt8 := 0x00
def tagLeaf : UInt8 := 0x01
def tagN4 : UInt8 := 0x02
def tagN16 : UInt8 := 0x03
def tagN48 : UInt8 := 0x04
def tagN256 : UInt8 := 0x05

/-- `assert!(prefix.len() <= 255)` panics on a longer prefix. -/
def serPfx (pfx : Bytes) (hasEnd : Bool) : Option Bytes :=
  if pfx.length ≤ 255 then
    some (UInt8.ofNat pfx.length :: pfx ++ [if hasEnd then 1 else 0])
  else none

/-- The first `n` of the children's encodings; `n` beyond the array panics. -/
def serChildren {cap : ℕ} (n : ℕ) (ser : Fin cap → Option Bytes) : Option Bytes :=
  if n ≤ cap then (((List.finRange cap).take n).mapM ser).map List.flatten else none

def serNode : Node → Option Bytes
  | empty => some [tagEmpty]
  | leaf sfx => some (tagLeaf :: be 2 sfx.length ++ sfx)
  | n4 pfx he n keys ch =>
    (serPfx pfx he).bind fun p =>
      (serChildren n fun i => (serNode (ch i)).map (keys i :: ·)).map fun below =>
        tagN4 :: p ++ UInt8.ofNat n :: below
  | n16 pfx he n keys ch =>
    (serPfx pfx he).bind fun p =>
      (serChildren n fun i => (serNode (ch i)).map (keys i :: ·)).map fun below =>
        tagN16 :: p ++ UInt8.ofNat n :: below
  | n48 pfx he n idx ch =>
    (serPfx pfx he).bind fun p =>
      (serChildren n fun i => serNode (ch i)).map fun below =>
        tagN48 :: p ++ UInt8.ofNat n :: (allBytes.map idx ++ below)
  | n256 pfx he _ ch =>
    (serPfx pfx he).bind fun p =>
      (allBytes.mapM fun b => serNode (ch b)).map fun below =>
        tagN256 :: p ++ below.flatten

def u8At (ctx : String) : Bytes → Except TreeError (UInt8 × Bytes)
  | b :: rest => .ok (b, rest)
  | [] => .error (.truncated ctx)

def u16At (ctx : String) : Bytes → Except TreeError (ℕ × Bytes)
  | b :: c :: rest => .ok (ofBe [b, c], rest)
  | _ => .error (.truncated ctx)

/-- `n` bytes from the front. -/
def sliceAt (n : ℕ) (ctx : String) (data : Bytes) : Except TreeError (Bytes × Bytes) :=
  if n ≤ data.length then .ok (data.take n, data.drop n) else .error (.truncated ctx)

/-- The prefix and the `has_end` flag. -/
def dePfx (data : Bytes) : Except TreeError ((Bytes × Bool) × Bytes) := do
  let (pfxLen, rest) ← u8At "pfx_len" data
  let (pfx, rest) ← sliceAt pfxLen.toNat "prefix" rest
  let (hasEnd, rest) ← u8At "prefix" rest
  return ((pfx, hasEnd != 0), rest)

/-- `n` items in a row. -/
def deMany {α : Type} (item : Bytes → Except TreeError (α × Bytes)) :
    ℕ → Bytes → Except TreeError (List α × Bytes)
  | 0, data => .ok ([], data)
  | n + 1, data => do
    let (a, rest) ← item data
    let (as, rest) ← deMany item n rest
    return (a :: as, rest)

/-- A child with its key byte in front. -/
def deKeyed (child : Bytes → Except TreeError (Node × Bytes)) (data : Bytes) :
    Except TreeError ((UInt8 × Node) × Bytes) := do
  let (key, rest) ← u8At "key" data
  let (node, rest) ← child rest
  return ((key, node), rest)

/-- One node, to a depth of `fuel`. Every level of the tree takes at least one byte, so the
    length of the data is fuel enough. -/
def deNode : ℕ → Bytes → Except TreeError (Node × Bytes)
  | 0, _ => .error (.truncated "tag")
  | fuel + 1, data => do
    let (tag, rest) ← u8At "tag" data
    if tag = tagEmpty then return (empty, rest)
    else if tag = tagLeaf then do
      let (len, rest) ← u16At "Leaf len" rest
      let (sfx, rest) ← sliceAt len "Leaf data" rest
      return (leaf sfx, rest)
    else if tag = tagN4 then do
      let ((pfx, hasEnd), rest) ← dePfx rest
      let (n, rest) ← u8At "n" rest
      if 4 < n.toNat then .error (.tooManyChildren tag n.toNat 4)
      let (below, rest) ← deMany (deKeyed (deNode fuel)) n.toNat rest
      return (n4 pfx hasEnd n.toNat (fun i => (below[i.val]?).elim 0 Prod.fst)
        (fun i => (below[i.val]?).elim empty Prod.snd), rest)
    else if tag = tagN16 then do
      let ((pfx, hasEnd), rest) ← dePfx rest
      let (n, rest) ← u8At "n" rest
      if 16 < n.toNat then .error (.tooManyChildren tag n.toNat 16)
      let (below, rest) ← deMany (deKeyed (deNode fuel)) n.toNat rest
      return (n16 pfx hasEnd n.toNat (fun i => (below[i.val]?).elim 0 Prod.fst)
        (fun i => (below[i.val]?).elim empty Prod.snd), rest)
    else if tag = tagN48 then do
      let ((pfx, hasEnd), rest) ← dePfx rest
      let (n, rest) ← u8At "N48 n" rest
      let (idx, rest) ← sliceAt 256 "N48 index" rest
      let (below, rest) ← deMany (deNode fuel) (min n.toNat 48) rest
      return (n48 pfx hasEnd n.toNat (fun b => idx.getD b.toNat n48Nil)
        (fun i => below.getD i.val empty), rest)
    else if tag = tagN256 then do
      let ((pfx, hasEnd), rest) ← dePfx rest
      let (below, rest) ← deMany (deNode fuel) 256 rest
      return (n256 pfx hasEnd (below.countP fun c => !c.isEmpty)
        (fun b => below.getD b.toNat empty), rest)
    else .error (.unknownTag tag)

end Node

namespace IndexTree

/-- The counter is written as `len as u32`. -/
def toBytes (t : IndexTree) : Option Bytes := (t.root.serNode).map (be 4 t.len ++ ·)

def fromBytes (data : Bytes) : Except TreeError IndexTree :=
  if data.length < 4 then .error (.tooShort data.length)
  else do
    let (root, rest) ← Node.deNode data.length (data.drop 4)
    if rest ≠ [] then .error (.trailingBytes rest.length)
    return ⟨root, ofBe (data.take 4)⟩

end IndexTree

end Arkiv
