import Mathlib
import Arkiv.DevChain.Check
import Arkiv.Lib.Run
import Arkiv.Query.Semantics

/-!
# Evaluation against the meaning

Where the indexes are coherent, evaluation returns the live entities that meet
the query: bitmaps for points, unions of bitmaps along the tree for ranges, and
complements within all entities.

## Main definitions

- `Returns` — a read has the IDs of the entities with a property
- `evaluate_iff` — evaluation returns exactly the entities that satisfy the query
-/

namespace Arkiv

open ByteString

section Evaluation

variable [Keccak] [RoaringFormat] {P : Set (Bytes × Bytes)} {K : Set Bytes} {w : World}
  {live : UInt64 → Option EntityRlp}

/-- A read has returned exactly the live entities whose annotations have the property. -/
def Returns (live : UInt64 → Option EntityRlp) (p : List Annotation → Prop)
    (read : Except DbError Bitmap) : Prop :=
  ∃ b, read = .ok b ∧ ∀ i, i ∈ b ↔ ∃ e, live i = some e ∧ p e.annotations

omit [Keccak] [RoaringFormat] in
theorem carriesTier2_of_carries {i : UInt64} {e f : EntityRlp} {k v : Bytes} {j : UInt64}
    (htiers : ∀ i j e f, live i = some e → live j = some f → ∀ a ∈ e.annotations,
      ∀ b ∈ f.annotations, a.key = b.key → a.value = b.value → a.tier2 = b.tier2)
    (he : live i = some e) (hf : live j = some f) (htier : CarriesTier2 f.annotations k (· = v))
    (hcarries : Carries e.annotations k v) : CarriesTier2 e.annotations k (· = v) := by
  obtain ⟨a, ha, hkey, hvalue⟩ := hcarries
  obtain ⟨b, hb, hbkey, hbtier, hbvalue⟩ := htier
  refine ⟨a, ha, hkey, ?_, hvalue⟩
  rw [htiers i j e f he hf a ha b hb (hkey.trans hbkey.symm) (hvalue.trans hbvalue.symm), hbtier]

namespace Coherent

/-- Every live entity carries `$all`. -/
theorem returns_all (hC : Coherent P K w live) : Returns live (fun _ => True) (allEntities w) := by
  obtain ⟨b, hb, hmem⟩ := hC.pairs _ _ hC.all_mem
  refine ⟨b, hb, fun i => ?_⟩
  rw [hmem]
  constructor
  · rintro ⟨e, he, -⟩
    exact ⟨e, he, trivial⟩
  · rintro ⟨e, he, -⟩
    exact ⟨e, he, ⟨annotAll, [], false⟩, by simp [EntityRlp.annotations, builtInAnnotations], rfl, rfl⟩

theorem returns_pair (hC : Coherent P K w live) {k v : Bytes} (hkv : (k, v) ∈ P) :
    Returns live (fun as => Carries as k v) (readPairBitmap w k v) :=
  hC.pairs k v hkv

/-- The complement is taken within the live entities, whose records are unique. -/
theorem returns_complement (hC : Coherent P K w live) {p : List Annotation → Prop}
    {read : Except DbError Bitmap} (hread : Returns live p read) :
    Returns live (fun as => ¬p as) (complementOf w read) := by
  obtain ⟨all, hall, hmem⟩ := hC.returns_all
  obtain ⟨b, hb, hmem'⟩ := hread
  refine ⟨all.subtract b, by rw [complementOf, hall, hb]; rfl, fun i => ?_⟩
  rw [Bitmap.mem_subtract, hmem, hmem']
  constructor
  · rintro ⟨⟨e, he, -⟩, hno⟩
    exact ⟨e, he, fun hp => hno ⟨e, he, hp⟩⟩
  · rintro ⟨e, he, hp⟩
    refine ⟨⟨e, he, trivial⟩, ?_⟩
    rintro ⟨f, hf, hpf⟩
    obtain rfl := Option.some.inj (he.symm.trans hf)
    exact hp hpf

/-- Step of the union over values: the accumulator grows by the carriers of one more value. -/
theorem unionOfPairs_foldl (hC : Coherent P K w live) {k : Bytes} {vs : List Bytes}
    (hvs : ∀ v ∈ vs, (k, v) ∈ P) (acc : Bitmap) :
    ∃ b, vs.foldlM (fun acc v => do return acc.unionWith (← readPairBitmap w k v)) acc = .ok b ∧
      ∀ i, i ∈ b ↔ i ∈ acc ∨ ∃ e, live i = some e ∧ ∃ v ∈ vs, Carries e.annotations k v := by
  induction vs generalizing acc with
  | nil => exact ⟨acc, rfl, fun i => by simp⟩
  | cons v vs ih =>
    obtain ⟨b, hb, hmem⟩ := hC.returns_pair (hvs v List.mem_cons_self)
    obtain ⟨c, hc, hmem'⟩ := ih (fun u hu => hvs u (List.mem_cons_of_mem _ hu)) (acc.unionWith b)
    refine ⟨c, ?_, fun i => ?_⟩
    · rw [List.foldlM_cons, hb]
      exact hc
    · rw [hmem', Bitmap.mem_unionWith, hmem, or_assoc]
      refine or_congr_right ?_
      constructor
      · rintro (⟨e, he, hv⟩ | ⟨e, he, u, hu, hcarries⟩)
        · exact ⟨e, he, v, List.mem_cons_self, hv⟩
        · exact ⟨e, he, u, List.mem_cons_of_mem _ hu, hcarries⟩
      · rintro ⟨e, he, u, hu, hcarries⟩
        rcases List.mem_cons.mp hu with rfl | hu
        · exact .inl ⟨e, he, hcarries⟩
        · exact .inr ⟨e, he, u, hu, hcarries⟩

theorem returns_union (hC : Coherent P K w live) {k : Bytes} {vs : List Bytes}
    (hvs : ∀ v ∈ vs, (k, v) ∈ P) :
    Returns live (fun as => ∃ v ∈ vs, Carries as k v) (unionOfPairs w k vs) := by
  obtain ⟨b, hb, hmem⟩ := hC.unionOfPairs_foldl hvs Bitmap.new
  refine ⟨b, hb, fun i => ?_⟩
  simpa using hmem i

/-- A scan unites the pairs of the values in the tree that are in the range. -/
theorem returns_scan (hC : Coherent P K w live) {key : AnnotKey} (hkey : key.pairKeyBytes ∈ K)
    {range : Bytes → Prop} {pred : Bytes → Bool} (hpred : ∀ u, pred u = true ↔ range u) :
    Returns live (fun as => CarriesTier2 as key.pairKeyBytes range)
      (readScan w key (·.filtered pred)) := by
  obtain ⟨t, keys, ht, hkeys, hmem⟩ := hC.trees _ hkey
  have hvalues : ∀ v ∈ keys.filter pred, (key.pairKeyBytes, v) ∈ P := by
    intro v hv
    obtain ⟨i, e, he, htier⟩ := (hmem v).mp (List.mem_filter.mp hv).1
    exact hC.scanned _ hkey i e v he htier
  obtain ⟨b, hb, hmem'⟩ := hC.returns_union hvalues
  have hread : readScan w key (·.filtered pred) = .ok b := by
    rw [readScan, ht]
    show (orPanic (t.filtered pred) >>= unionOfPairs w key.pairKeyBytes) = .ok b
    rw [IndexTree.filtered, hkeys]
    exact hb
  refine ⟨b, hread, fun i => ?_⟩
  rw [hmem']
  constructor
  · rintro ⟨e, he, v, hv, hcarries⟩
    obtain ⟨hv, hp⟩ := List.mem_filter.mp hv
    obtain ⟨j, f, hf, htier⟩ := (hmem v).mp hv
    -- The value is in the tree for some entity, so it is tier 2 for this one too.
    obtain ⟨a, ha, hak, hat, rfl⟩ := carriesTier2_of_carries hC.tiers he hf htier hcarries
    exact ⟨e, he, a, ha, hak, hat, (hpred _).mp hp⟩
  · rintro ⟨e, he, a, ha, hak, hat, hrange⟩
    refine ⟨e, he, a.value, List.mem_filter.mpr ⟨?_, (hpred _).mpr hrange⟩, a, ha, hak, rfl⟩
    exact (hmem a.value).mpr ⟨i, e, he, a, ha, hak, hat, rfl⟩

omit [Keccak] [RoaringFormat] in
/-- Conjunction, with its short cut: nothing meets an empty left side. -/
theorem returns_and {p r : List Annotation → Prop} {left right : Except DbError Bitmap}
    (hleft : Returns live p left) (hright : Returns live r right) :
    Returns live (fun as => p as ∧ r as)
      (do let l ← left; if l.isEmpty then return l else return l.intersectWith (← right)) := by
  obtain ⟨b, rfl, hb⟩ := hleft
  obtain ⟨c, rfl, hc⟩ := hright
  have hread : (do let l ← Except.ok b; if l.isEmpty then return l else
      return l.intersectWith (← Except.ok c)) =
      (Except.ok (if b.isEmpty then b else b.intersectWith c) : Except DbError Bitmap) := by
    show (if b.isEmpty = true then _ else _) = _
    split <;> rfl
  refine ⟨_, hread, fun i => ?_⟩
  by_cases hempty : b.isEmpty = true
  · rw [if_pos hempty]
    have hno := Bitmap.isEmpty_iff.mp hempty i
    refine iff_of_false hno ?_
    rintro ⟨e, he, hp, -⟩
    exact hno ((hb i).mpr ⟨e, he, hp⟩)
  · rw [if_neg hempty, Bitmap.mem_intersectWith, hb, hc]
    constructor
    · rintro ⟨⟨e, he, hp⟩, f, hf, hr⟩
      obtain rfl := Option.some.inj (he.symm.trans hf)
      exact ⟨e, he, hp, hr⟩
    · rintro ⟨e, he, hp, hr⟩
      exact ⟨⟨e, he, hp⟩, e, he, hr⟩

omit [Keccak] [RoaringFormat] in
theorem returns_or {p r : List Annotation → Prop} {left right : Except DbError Bitmap}
    (hleft : Returns live p left) (hright : Returns live r right) :
    Returns live (fun as => p as ∨ r as)
      (do let l ← left; return l.unionWith (← right)) := by
  obtain ⟨b, rfl, hb⟩ := hleft
  obtain ⟨c, rfl, hc⟩ := hright
  refine ⟨b.unionWith c, rfl, fun i => ?_⟩
  rw [Bitmap.mem_unionWith, hb, hc]
  constructor
  · rintro (⟨e, he, hp⟩ | ⟨e, he, hr⟩)
    · exact ⟨e, he, .inl hp⟩
    · exact ⟨e, he, .inr hr⟩
  · rintro ⟨e, he, hp | hr⟩
    · exact .inl ⟨e, he, hp⟩
    · exact .inr ⟨e, he, hr⟩

/-- Every query returns what it asks for, by induction over its connectives. -/
theorem returns_eval (hC : Coherent P K w live) (q : Query) (hq : q.Within P K) :
    Returns live (fun as => Satisfies as q) (q.eval w) := by
  induction q with
  | all => exact hC.returns_all
  | eq k v => exact hC.returns_pair hq
  | neq k v => exact hC.returns_complement (hC.returns_pair hq)
  | isIn k vs => exact hC.returns_union hq
  | notIn k vs => exact hC.returns_complement (hC.returns_union hq)
  | gt k v => exact hC.returns_scan hq fun u => decide_eq_true_iff
  | gte k v => exact hC.returns_scan hq fun u => decide_eq_true_iff
  | lt k v => exact hC.returns_scan hq fun u => decide_eq_true_iff
  | lte k v => exact hC.returns_scan hq fun u => decide_eq_true_iff
  | glob k v => exact hC.returns_scan hq fun u => List.isPrefixOf_iff_prefix
  | notGlob k v =>
    exact hC.returns_complement (hC.returns_scan hq fun u => List.isPrefixOf_iff_prefix)
  | and l r ihl ihr => exact Coherent.returns_and (ihl hq.1) (ihr hq.2)
  | or l r ihl ihr => exact Coherent.returns_or (ihl hq.1) (ihr hq.2)
  | not q ih => exact hC.returns_complement (ih hq)

end Coherent

/-- **Query semantics**: where the indexes are coherent, evaluation returns exactly the IDs of the
    live entities whose annotations satisfy the query. With all pairs and all keys for `P` and `K`
    this is every query over a state that is coherent everywhere. -/
theorem evaluate_iff (hC : Coherent P K w live) (q : Query) (hq : q.Within P K) :
    ∃ b, q.evaluate w = .ok b ∧
      ∀ i, i ∈ b ↔ ∃ e, live i = some e ∧ Satisfies e.annotations q :=
  hC.returns_eval q hq

end Evaluation

namespace DevChain

/-- The IDs that the two creates have got. -/
def openLive (i : UInt64) : Option EntityRlp :=
  if i = 0 then some firstEntity else if i = 1 then some secondEntity else none

/-- All pairs that the development run ever posts; some of them nobody carries yet. -/
def probedPairs : List (Bytes × Bytes) := tradeAnnotations.map fun a => (a.key, a.value)

def probedKeys : List Bytes := [annotExpiration, ascii "score"]

def openCarriers (k v : Bytes) : Finset UInt64 :=
  (if Carries firstEntity.annotations k v then {0} else ∅) ∪
    if Carries secondEntity.annotations k v then {1} else ∅

/-- The values that the entities post in tier 2 under a key. -/
def tier2Values (k : Bytes) : List Bytes :=
  ((secondEntity.annotations ++ firstEntity.annotations).filter fun a =>
    a.key = k ∧ a.tier2 = true).map (·.value)

def indexFacts (w : World) : Bool :=
  (probedPairs.all fun p => decide (readPairBitmap w p.1 p.2 = .ok ⟨openCarriers p.1 p.2⟩)) &&
  (probedKeys.all fun k =>
    match readIndexTree w k with
    | .ok t => decide (t.keys = some (tier2Values k))
    | .error _ => false) &&
  decide (resolveId w 0 = .ok (some firstEntity)) &&
  decide (resolveId w 1 = .ok (some secondEntity))

/-- The parts of `indexFacts`. -/
structure IndexFacts (w : World) : Prop where
  bitmap : ∀ k v, (k, v) ∈ probedPairs → readPairBitmap w k v = .ok ⟨openCarriers k v⟩
  tree : ∀ k ∈ probedKeys, ∃ t, readIndexTree w k = .ok t ∧ t.keys = some (tier2Values k)
  first : resolveId w 0 = .ok (some firstEntity)
  second : resolveId w 1 = .ok (some secondEntity)

theorem indexFacts_iff {w : World} (h : indexFacts w = true) : IndexFacts w := by
  simp only [indexFacts, Bool.and_eq_true, decide_eq_true_eq, List.all_eq_true] at h
  obtain ⟨⟨⟨hbitmap, htree⟩, hfirst⟩, hsecond⟩ := h
  refine ⟨fun k v hkv => hbitmap (k, v) hkv, fun k hk => ?_, hfirst, hsecond⟩
  have ht := htree k hk
  split at ht
  · next t hread => exact ⟨t, hread, of_decide_eq_true ht⟩
  · simp at ht

theorem facts_openWorld : IndexFacts (Chain.run openRun).world := by
  have hfacts : indexFacts openState.world = true := by decide +kernel
  rw [run_openRun]
  exact indexFacts_iff hfacts

theorem openLive_eq_some {i : UInt64} {e : EntityRlp} :
    openLive i = some e ↔ i = 0 ∧ e = firstEntity ∨ i = 1 ∧ e = secondEntity := by
  rw [openLive]
  by_cases h0 : i = 0
  · simp [h0, eq_comm]
  · by_cases h1 : i = 1
    · simp [h1, eq_comm]
    · simp [h0, h1]

/-- Both entities carry annotations of the run only. -/
theorem annotations_openLive {i : UInt64} {e : EntityRlp} (h : openLive i = some e) :
    ∀ a ∈ e.annotations, a ∈ tradeAnnotations := by
  have hall : ∀ e ∈ [firstEntity, secondEntity], ∀ a ∈ e.annotations, a ∈ tradeAnnotations := by
    decide +kernel
  rcases openLive_eq_some.mp h with ⟨-, rfl⟩ | ⟨-, rfl⟩
  · exact hall _ List.mem_cons_self
  · exact hall _ (List.mem_cons_of_mem _ List.mem_cons_self)

theorem mem_openCarriers {i : UInt64} {k v : Bytes} :
    i ∈ openCarriers k v ↔ ∃ e, openLive i = some e ∧ Carries e.annotations k v := by
  have hif : ∀ (p : Prop) [Decidable p] (j : UInt64),
      i ∈ (if p then {j} else ∅ : Finset UInt64) ↔ p ∧ i = j := by
    intro p _ j
    split <;> simp [*]
  simp only [openCarriers, Finset.mem_union, hif, openLive_eq_some]
  constructor
  · rintro (⟨hc, rfl⟩ | ⟨hc, rfl⟩)
    · exact ⟨_, .inl ⟨rfl, rfl⟩, hc⟩
    · exact ⟨_, .inr ⟨rfl, rfl⟩, hc⟩
  · rintro ⟨e, ⟨rfl, rfl⟩ | ⟨rfl, rfl⟩, hc⟩
    · exact .inl ⟨hc, rfl⟩
    · exact .inr ⟨hc, rfl⟩

theorem mem_tier2Values {k v : Bytes} :
    v ∈ tier2Values k ↔ ∃ i e, openLive i = some e ∧ CarriesTier2 e.annotations k (· = v) := by
  simp only [tier2Values, List.mem_map, List.mem_filter, List.mem_append, decide_eq_true_eq,
    openLive_eq_some]
  constructor
  · rintro ⟨a, ⟨ha | ha, hkey, htier⟩, hv⟩
    · exact ⟨1, _, .inr ⟨rfl, rfl⟩, a, ha, hkey, htier, hv⟩
    · exact ⟨0, _, .inl ⟨rfl, rfl⟩, a, ha, hkey, htier, hv⟩
  · rintro ⟨i, e, ⟨-, rfl⟩ | ⟨-, rfl⟩, a, ha, hkey, htier, hv⟩
    · exact ⟨a, ⟨.inr ha, hkey, htier⟩, hv⟩
    · exact ⟨a, ⟨.inl ha, hkey, htier⟩, hv⟩

/-- The indexes after the two creates. -/
theorem coherent_openRun :
    Coherent {p | p ∈ probedPairs} {k | k ∈ probedKeys} (Chain.run openRun).world openLive where
  pairs k v hkv := ⟨_, facts_openWorld.bitmap k v hkv, fun i => mem_openCarriers⟩
  trees k hk := by
    obtain ⟨t, ht, hkeys⟩ := facts_openWorld.tree k hk
    exact ⟨t, _, ht, hkeys, fun v => mem_tier2Values⟩
  scanned k _ i e v he htier := by
    obtain ⟨a, ha, rfl, -, rfl⟩ := htier
    exact List.mem_map.mpr ⟨a, annotations_openLive he a ha, rfl⟩
  tiers i j e f he hf a ha b hb :=
    tiers_tradeAnnotations a (annotations_openLive he a ha) b (annotations_openLive hf b hb)
  all_mem := List.mem_cons_self

/-- Entities that expire after block 50 and have no score of 7. -/
def lateQuery : Query :=
  .and (.gt (.builtIn .expiration) (u64Bytes 50))
    (.not (.isIn (.user (ascii "score")) [be 32 7]))

theorem within_lateQuery : lateQuery.Within {p | p ∈ probedPairs} {k | k ∈ probedKeys} := by
  refine ⟨List.mem_cons_self, fun v hv => ?_⟩
  rw [List.mem_singleton.mp hv]
  exact List.mem_map.mpr ⟨scoreOf 7, by simp [tradeAnnotations], rfl⟩

end DevChain

theorem evaluate_lateQuery :
    ∃ b, DevChain.lateQuery.evaluate (Chain.run DevChain.openRun).world = .ok b ∧
      ∀ i, i ∈ b ↔ ∃ e, DevChain.openLive i = some e ∧
        Satisfies e.annotations DevChain.lateQuery :=
  evaluate_iff DevChain.coherent_openRun DevChain.lateQuery DevChain.within_lateQuery

end Arkiv
