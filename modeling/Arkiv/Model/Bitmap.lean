import Mathlib
import Arkiv.Lib.Bytes

/-!
# Bitmaps of entity IDs

A roaring bitmap is the set of its IDs; its portable byte layout is a
parameter of which only the round trip is used.

## Main definitions

- `RoaringFormat` — the serialised form of a set of IDs
- `Bitmap` — a set of IDs with the operations of entitydb
-/

namespace Arkiv

open ByteString

/-- `RoaringTreemap::serialize_into` and `deserialize_from`. The portable layout starts with a
    count, so it is never empty, and it reads back to the same set. -/
class RoaringFormat where
  serialize : Finset UInt64 → Bytes
  deserialize : Bytes → Option (Finset UInt64)
  deserialize_serialize : ∀ s, deserialize (serialize s) = some s
  serialize_ne_nil : ∀ s, serialize s ≠ []

/-- Roaring64 bitmap of entity IDs. -/
structure Bitmap where
  ids : Finset UInt64
deriving DecidableEq

namespace Bitmap

def new : Bitmap := ⟨∅⟩

def insert (b : Bitmap) (id : UInt64) : Bitmap := ⟨Insert.insert id b.ids⟩

def remove (b : Bitmap) (id : UInt64) : Bitmap := ⟨b.ids.erase id⟩

def isEmpty (b : Bitmap) : Bool := b.ids = ∅

def unionWith (b c : Bitmap) : Bitmap := ⟨b.ids ∪ c.ids⟩

def intersectWith (b c : Bitmap) : Bitmap := ⟨b.ids ∩ c.ids⟩

def subtract (b c : Bitmap) : Bitmap := ⟨b.ids \ c.ids⟩

/-- The IDs in ascending order. -/
def sortedIds (b : Bitmap) : List UInt64 := b.ids.sort (· ≤ ·)

def toBytes [RoaringFormat] (b : Bitmap) : Bytes := RoaringFormat.serialize b.ids

/-- `none` is the error "invalid roaring bitmap bytes". -/
def fromBytes [RoaringFormat] (bytes : Bytes) : Option Bitmap :=
  (RoaringFormat.deserialize bytes).map Bitmap.mk

instance : Membership UInt64 Bitmap := ⟨fun b id => id ∈ b.ids⟩

theorem mem_def {b : Bitmap} {id : UInt64} : id ∈ b ↔ id ∈ b.ids := Iff.rfl

instance (id : UInt64) (b : Bitmap) : Decidable (id ∈ b) := inferInstanceAs (Decidable (id ∈ b.ids))

@[simp] theorem not_mem_new (id : UInt64) : id ∉ new := by simp [mem_def, new]

@[simp] theorem mem_insert {b : Bitmap} {i j : UInt64} : j ∈ b.insert i ↔ j = i ∨ j ∈ b := by
  simp [mem_def, insert]

@[simp] theorem mem_remove {b : Bitmap} {i j : UInt64} : j ∈ b.remove i ↔ j ≠ i ∧ j ∈ b := by
  simp [mem_def, remove]

@[simp] theorem mem_unionWith {b c : Bitmap} {i : UInt64} : i ∈ b.unionWith c ↔ i ∈ b ∨ i ∈ c := by
  simp [mem_def, unionWith]

@[simp] theorem mem_intersectWith {b c : Bitmap} {i : UInt64} :
    i ∈ b.intersectWith c ↔ i ∈ b ∧ i ∈ c := by
  simp [mem_def, intersectWith]

@[simp] theorem mem_subtract {b c : Bitmap} {i : UInt64} : i ∈ b.subtract c ↔ i ∈ b ∧ i ∉ c := by
  simp [mem_def, subtract]

@[simp] theorem mem_sortedIds {b : Bitmap} {i : UInt64} : i ∈ b.sortedIds ↔ i ∈ b := by
  simp [mem_def, sortedIds]

theorem sortedIds_pairwise (b : Bitmap) : b.sortedIds.Pairwise (· < ·) := by
  have hle := Finset.pairwise_sort b.ids (· ≤ ·)
  have hne : b.sortedIds.Pairwise (· ≠ ·) := Finset.sort_nodup b.ids (· ≤ ·)
  refine List.Pairwise.imp₂ (fun i j hij hd => ?_) hle hne
  exact UInt64.lt_of_le_of_ne hij hd

theorem isEmpty_iff {b : Bitmap} : b.isEmpty = true ↔ ∀ i, i ∉ b := by
  simp [isEmpty, mem_def, Finset.eq_empty_iff_forall_notMem]

@[ext] theorem ext {b c : Bitmap} (h : ∀ i, i ∈ b ↔ i ∈ c) : b = c := by
  cases b
  cases c
  congr 1
  exact Finset.ext h

variable [RoaringFormat]

@[simp] theorem fromBytes_toBytes (b : Bitmap) : fromBytes b.toBytes = some b := by
  simp [fromBytes, toBytes, RoaringFormat.deserialize_serialize]

@[simp] theorem toBytes_ne_nil (b : Bitmap) : b.toBytes ≠ [] := RoaringFormat.serialize_ne_nil b.ids

end Bitmap

end Arkiv
