import Mathlib
import Arkiv.Model.Query
import Arkiv.Registry.Effect

/-!
# The meaning of queries

A query is a condition on the annotations of one entity. The indexes of a state
are coherent when bitmaps and trees are those of its live entities.

## Main definitions

- `Satisfies` — the usual reading of a query
- `Query.Within` — the pairs and the keys that a query names
- `Coherent` — bitmaps and trees against the live entities
-/

namespace Arkiv

open ByteString

/-- One of the annotations is indexed in tier 2 under the key, with a value in the range. -/
def CarriesTier2 (as : List Annotation) (k : Bytes) (range : Bytes → Prop) : Prop :=
  ∃ a ∈ as, a.key = k ∧ a.tier2 = true ∧ range a.value

/-- The usual reading of a query, on the annotations of one entity. -/
def Satisfies (as : List Annotation) : Query → Prop
  | .all => True
  | .eq k v => Carries as k.pairKeyBytes v
  | .neq k v => ¬Carries as k.pairKeyBytes v
  | .isIn k vs => ∃ v ∈ vs, Carries as k.pairKeyBytes v
  | .notIn k vs => ¬∃ v ∈ vs, Carries as k.pairKeyBytes v
  | .gt k v => CarriesTier2 as k.pairKeyBytes fun u => v < u
  | .gte k v => CarriesTier2 as k.pairKeyBytes fun u => v ≤ u
  | .lt k v => CarriesTier2 as k.pairKeyBytes fun u => u < v
  | .lte k v => CarriesTier2 as k.pairKeyBytes fun u => u ≤ v
  | .glob k v => CarriesTier2 as k.pairKeyBytes fun u => v <+: u
  | .notGlob k v => ¬CarriesTier2 as k.pairKeyBytes fun u => v <+: u
  | .and l r => Satisfies as l ∧ Satisfies as r
  | .or l r => Satisfies as l ∨ Satisfies as r
  | .not q => ¬Satisfies as q

/-- The point reads of the query are at pairs in `P`, its scans under keys in `K`. -/
def Query.Within (P : Set (Bytes × Bytes)) (K : Set Bytes) : Query → Prop
  | .all => True
  | .eq k v | .neq k v => (k.pairKeyBytes, v) ∈ P
  | .isIn k vs | .notIn k vs => ∀ v ∈ vs, (k.pairKeyBytes, v) ∈ P
  | .gt k _ | .gte k _ | .lt k _ | .lte k _ | .glob k _ | .notGlob k _ => k.pairKeyBytes ∈ K
  | .and l r | .or l r => l.Within P K ∧ r.Within P K
  | .not q => q.Within P K

/-- The indexes of a state against the live entities by their IDs: bitmaps of the pairs in `P`,
    trees of the keys in `K`, whose values are pairs in `P` again. -/
structure Coherent [Keccak] [RoaringFormat] (P : Set (Bytes × Bytes)) (K : Set Bytes) (w : World)
    (live : UInt64 → Option EntityRlp) : Prop where
  pairs : ∀ k v, (k, v) ∈ P → ∃ b, readPairBitmap w k v = .ok b ∧
    ∀ i, i ∈ b ↔ ∃ e, live i = some e ∧ Carries e.annotations k v
  trees : ∀ k ∈ K, ∃ t keys, readIndexTree w k = .ok t ∧ t.keys = some keys ∧
    ∀ v, v ∈ keys ↔ ∃ i e, live i = some e ∧ CarriesTier2 e.annotations k (· = v)
  scanned : ∀ k ∈ K, ∀ i e v, live i = some e → CarriesTier2 e.annotations k (· = v) → (k, v) ∈ P
  tiers : ∀ i j e f, live i = some e → live j = some f → ∀ a ∈ e.annotations,
    ∀ b ∈ f.annotations, a.key = b.key → a.value = b.value → a.tier2 = b.tier2
  all_mem : (annotAll, []) ∈ P

end Arkiv
