import Mathlib
import Arkiv.Query.Evaluation
import Arkiv.Query.Pages
import Arkiv.Registry.IndexCoherence

/-!
# What clients are answered

Queries are answered from bitmaps and trees. Where these follow the records a
client that walks the pages meets every live entity that satisfies its query
once, the newest first, and no other. For points on the built-in keys this is
every run.

## Main definitions

- `liveRecord` — the record of the live entity with an ID
- `EntityRlp.under` — a record with the user attributes under some keys only
- `IndexHolds.coherent` — indexes that follow the records are coherent
- `pages_run` — the pages of a query after a run
- `builtInPages_run` — the pages of point queries on the built-in keys
-/

namespace Arkiv

open ByteString

section Records

variable {Q : Set Bytes} {P : Set (Bytes × Bytes)} {K : Set Bytes} {e : EntityRlp} {a : Annotation}

open Classical in
/-- The record without the user attributes under other keys. -/
noncomputable def EntityRlp.under (Q : Set Bytes) (e : EntityRlp) : EntityRlp :=
  { e with attributes := e.attributes.filter fun a => a.key ∈ Q }

theorem EntityRlp.mem_annotations_under : a ∈ (e.under Q).annotations ↔ a ∈ e.annotations ∧
    (a.key ∈ Q ∨ a ∈ builtInAnnotations e.creator e.owner e.key e.createdAtBlock e.expiresAt
      e.contentType) := by
  classical
  have huser : a ∈ userAnnotations (e.under Q).attributes ↔
      a ∈ userAnnotations e.attributes ∧ a.key ∈ Q := by
    constructor
    · intro ha
      obtain ⟨y, hy, rfl⟩ := List.mem_map.mp ha
      obtain ⟨hy, hkey⟩ := List.mem_filter.mp hy
      exact ⟨List.mem_map_of_mem hy, of_decide_eq_true hkey⟩
    · rintro ⟨ha, hkey⟩
      obtain ⟨y, hy, rfl⟩ := List.mem_map.mp ha
      exact List.mem_map_of_mem (List.mem_filter.mpr ⟨hy, decide_eq_true hkey⟩)
  have hsplit : a ∈ (e.under Q).annotations ↔ a ∈ builtInAnnotations e.creator e.owner e.key
      e.createdAtBlock e.expiresAt e.contentType ∨ a ∈ userAnnotations (e.under Q).attributes :=
    List.mem_append
  rw [hsplit, huser, EntityRlp.annotations, List.mem_append]
  tauto

theorem EntityRlp.mem_annotations_under_of_key (hkey : a.key ∈ Q) :
    a ∈ (e.under Q).annotations ↔ a ∈ e.annotations := by
  rw [mem_annotations_under, and_iff_left (.inl hkey)]

theorem carries_under {k v : Bytes} (hk : k ∈ Q) :
    Carries (e.under Q).annotations k v ↔ Carries e.annotations k v := by
  refine exists_congr fun a => and_congr_left fun hat => ?_
  rw [EntityRlp.mem_annotations_under_of_key (hat.1 ▸ hk)]

theorem carriesTier2_under {k : Bytes} {range : Bytes → Prop} (hk : k ∈ Q) :
    CarriesTier2 (e.under Q).annotations k range ↔ CarriesTier2 e.annotations k range := by
  refine exists_congr fun a => and_congr_left fun hat => ?_
  rw [EntityRlp.mem_annotations_under_of_key (hat.1 ▸ hk)]

/-- A query sees only what is under the keys that it names. -/
theorem satisfies_under (hP : ∀ p ∈ P, p.1 ∈ Q) (hK : K ⊆ Q) (q : Query) (hq : q.Within P K) :
    Satisfies (e.under Q).annotations q ↔ Satisfies e.annotations q := by
  induction q with
  | all => exact Iff.rfl
  | eq k v => exact carries_under (hP _ hq)
  | neq k v => exact not_congr (carries_under (hP _ hq))
  | isIn k vs => exact exists_congr fun v => and_congr_right fun hv => carries_under (hP _ (hq v hv))
  | notIn k vs =>
    exact not_congr (exists_congr fun v => and_congr_right fun hv => carries_under (hP _ (hq v hv)))
  | gt k v => exact carriesTier2_under (hK hq)
  | gte k v => exact carriesTier2_under (hK hq)
  | lt k v => exact carriesTier2_under (hK hq)
  | lte k v => exact carriesTier2_under (hK hq)
  | glob k v => exact carriesTier2_under (hK hq)
  | notGlob k v => exact not_congr (carriesTier2_under (hK hq))
  | and l r ihl ihr => exact and_congr (ihl hq.1) (ihr hq.2)
  | or l r ihl ihr => exact or_congr (ihl hq.1) (ihr hq.2)
  | not q ih => exact not_congr (ih hq)

end Records

section Runs

variable [Host] {S : Scope} {chainId : UInt64} {Q L : Set Bytes} {w : World} {h : History}

open Classical in
/-- The record of the live entity with the ID. -/
noncomputable def liveRecord (S : Scope) (chainId : UInt64) (w : World) (i : UInt64) :
    Option EntityRlp :=
  if hlive : ∃ e, LiveId S chainId w i e then some hlive.choose else none

theorem Numbered.liveRecord_eq_some (hN : Numbered S chainId w h) {i : UInt64} {e : EntityRlp} :
    liveRecord S chainId w i = some e ↔ LiveId S chainId w i e := by
  rw [liveRecord]
  by_cases hlive : ∃ f, LiveId S chainId w i f
  · rw [dif_pos hlive, Option.some_inj]
    constructor
    · rintro rfl
      exact hlive.choose_spec
    · exact fun he => hN.liveId_unique hlive.choose_spec he
  · rw [dif_neg hlive]
    exact iff_of_false (by simp) fun he => hlive ⟨e, he⟩

/-- The pairs of the scope under the keys. -/
def pairsUnder (S : Scope) (Q : Set Bytes) : Set (Bytes × Bytes) := {p | p.1 ∈ Q ∧ S.Covers p.1 p.2}

/-- The keys with a tree in the scope. -/
def keysUnder (S : Scope) (L : Set Bytes) : Set Bytes := {k | k ∈ L ∧ indexPreimage k ∈ S.accounts}

/-- The live records, as far as the keys go. -/
noncomputable def liveUnder (S : Scope) (chainId : UInt64) (Q : Set Bytes) (w : World)
    (i : UInt64) : Option EntityRlp :=
  (liveRecord S chainId w i).map (EntityRlp.under Q)

theorem Numbered.liveUnder_eq_some (hN : Numbered S chainId w h) {i : UInt64} {f : EntityRlp} :
    liveUnder S chainId Q w i = some f ↔ ∃ e, LiveId S chainId w i e ∧ e.under Q = f := by
  rw [liveUnder, Option.map_eq_some_iff]
  exact exists_congr fun e => and_congr_left fun _ => hN.liveRecord_eq_some

theorem Numbered.exists_liveUnder (hN : Numbered S chainId w h) {i : UInt64}
    {p : EntityRlp → Prop} :
    (∃ f, liveUnder S chainId Q w i = some f ∧ p f) ↔
      ∃ e, LiveId S chainId w i e ∧ p (e.under Q) := by
  constructor
  · rintro ⟨f, hf, hp⟩
    obtain ⟨e, he, rfl⟩ := hN.liveUnder_eq_some.mp hf
    exact ⟨e, he, hp⟩
  · rintro ⟨e, he, hp⟩
    exact ⟨_, hN.liveUnder_eq_some.mpr ⟨e, he, rfl⟩, hp⟩

theorem mem_post_liveIndex_iff {i : UInt64} {k v : Bytes} :
    i ∈ (liveIndex S chainId w).post k v ↔
      ∃ e, LiveId S chainId w i e ∧ Carries e.annotations k v := by
  rw [mem_post_liveIndex]
  constructor
  · rintro ⟨a, e, ha, hid, hcarries⟩
    exact ⟨e, ⟨a, ha, hid⟩, hcarries⟩
  · rintro ⟨e, ⟨a, ha, hid⟩, hcarries⟩
    exact ⟨a, e, ha, hid, hcarries⟩

/-- Under the keys, and under the others once the user attributes are gone, a value has one
    tier. -/
theorem IndexHolds.tiers_under (hI : IndexHolds S chainId Q L w) (hR : Registered S chainId w h)
    {i j : UInt64} {e f : EntityRlp} (he : LiveId S chainId w i e) (hf : LiveId S chainId w j f)
    {a b : Annotation} (ha : a ∈ (e.under Q).annotations) (hb : b ∈ (f.under Q).annotations)
    (hkey : a.key = b.key) (hvalue : a.value = b.value) : a.tier2 = b.tier2 := by
  obtain ⟨ha, hacase⟩ := EntityRlp.mem_annotations_under.mp ha
  obtain ⟨hb, hbcase⟩ := EntityRlp.mem_annotations_under.mp hb
  apply Bool.eq_iff_iff.mpr
  by_cases hk : a.key ∈ Q
  · exact hI.tiers a.key hk i j a ⟨e, he, ha⟩ b ⟨f, hf, hb⟩ rfl hkey.symm hvalue
  · have hbuilt : a.key ∈ builtInKeys := by
      have hmem := hacase.resolve_left hk
      simp only [builtInAnnotations, List.mem_cons, List.not_mem_nil, or_false] at hmem
      rcases hmem with rfl | rfl | rfl | rfl | rfl | rfl | rfl <;> simp [builtInKeys]
    obtain ⟨c, hc, -⟩ := he
    obtain ⟨d, hd, -⟩ := hf
    rw [(hR.recorded c e hc).wellFormed.tier2_iff ha hbuilt, hkey,
      (hR.recorded d f hd).wellFormed.tier2_iff hb (hkey ▸ hbuilt)]

/-- **Indexes that follow the records are coherent**, on the pairs and trees of the scope. -/
theorem IndexHolds.coherent (hI : IndexHolds S chainId Q L w) (hL : L ⊆ Q)
    (hN : Numbered S chainId w h) (hR : Registered S chainId w h) (hall : annotAll ∈ Q)
    (hcovers : S.Covers annotAll []) :
    Coherent (pairsUnder S Q) (keysUnder S L) w (liveUnder S chainId Q w) where
  pairs k v hkv := by
    obtain ⟨b, hb, hmem⟩ := hI.pairs k hkv.1 v hkv.2
    refine ⟨b, hb, fun i => ?_⟩
    rw [hmem, mem_post_liveIndex_iff, hN.exists_liveUnder (p := fun f => Carries f.annotations k v)]
    exact exists_congr fun e => and_congr_right fun _ => (carries_under hkv.1).symm
  trees k hk := by
    obtain ⟨s, hs, hmem⟩ := hI.trees k hk.1 hk.2
    obtain ⟨t, l, hread, hl, hmem', -⟩ := hs.exists_enumerates
    refine ⟨t, l, readIndexTree_of_ofCode hread, hl.keys, fun v => ?_⟩
    rw [hmem', hmem]
    simp only [hN.exists_liveUnder (p := fun f => CarriesTier2 f.annotations k (· = v)),
      carriesTier2_under (hL hk.1)]
    -- The index speaks of IDs with an annotation, coherence of records with one.
    constructor
    · rintro ⟨i, a, ⟨e, he, ha⟩, ⟨hkey, hvalue⟩, hlisted⟩
      exact ⟨i, e, he, a, ha, hkey, hlisted, hvalue⟩
    · rintro ⟨i, e, he, a, ha, hkey, hlisted, hvalue⟩
      exact ⟨i, a, ⟨e, he, ha⟩, ⟨hkey, hvalue⟩, hlisted⟩
  scanned k hk i f v hf hcarries := by
    obtain ⟨e, ⟨a, ha, -⟩, rfl⟩ := hN.liveUnder_eq_some.mp hf
    obtain ⟨b, hb, hkey, -, hvalue⟩ := (carriesTier2_under (hL hk.1)).mp hcarries
    have hcov := (hR.recorded a e ha).covers b hb
    rw [hkey, hvalue] at hcov
    exact ⟨hL hk.1, hcov⟩
  tiers i j e f he hf a ha b hb hkey hvalue := by
    obtain ⟨e', he', rfl⟩ := hN.liveUnder_eq_some.mp he
    obtain ⟨f', hf', rfl⟩ := hN.liveUnder_eq_some.mp hf
    exact hI.tiers_under hR he' hf' ha hb hkey hvalue
  all_mem := ⟨hall, hcovers⟩

/-- What is answered: the query evaluates to the IDs of the live entities that satisfy it. -/
theorem IndexHolds.evaluates (hI : IndexHolds S chainId Q L w) (hL : L ⊆ Q)
    (hN : Numbered S chainId w h) (hR : Registered S chainId w h) (hall : annotAll ∈ Q)
    (hcovers : S.Covers annotAll []) (q : Query)
    (hq : q.Within (pairsUnder S Q) (keysUnder S L)) :
    ∃ b, q.evaluate w = .ok b ∧
      ∀ i, i ∈ b ↔ ∃ e, LiveId S chainId w i e ∧ Satisfies e.annotations q := by
  obtain ⟨b, hb, hmem⟩ := (hI.coherent hL hN hR hall hcovers).returns_eval q hq
  refine ⟨b, hb, fun i => ?_⟩
  rw [hmem, hN.exists_liveUnder (p := fun f => Satisfies f.annotations q)]
  refine exists_congr fun e => and_congr_right fun _ => ?_
  exact satisfies_under (fun p hp => hp.1) (fun k hk => hL hk.1) q hq

/-- The entities that the pages return are those at an address other than zero. -/
theorem Numbered.resolves (hN : Numbered S chainId w h) {i : UInt64} {e : EntityRlp}
    (he : LiveId S chainId w i e) :
    ∃ r, resolveId w i = .ok r ∧
      ∀ f, r = some f ↔ ∃ a, a ≠ 0 ∧ Live S chainId w a f ∧ readEntityId w a = i := by
  obtain ⟨a, ha, rfl⟩ := he
  refine ⟨_, resolveId_of_live ha.2 (hN.idToAddr a e ha), fun f => ?_⟩
  by_cases hzero : a = 0
  · rw [if_pos hzero]
    refine iff_of_false (by simp) ?_
    rintro ⟨b, hb, hf, hid⟩
    exact hb ((hN.distinct hf ha hid).trans hzero)
  · rw [if_neg hzero, Option.some_inj]
    constructor
    · rintro rfl
      exact ⟨a, hzero, ha, rfl⟩
    · rintro ⟨b, -, hf, hid⟩
      obtain rfl := hN.distinct hf ha hid
      exact ha.2.unique hf.2

end Runs

section Pages

variable [Keccak] [RoaringFormat] {w : World} {q : Query} {rs : List QueryResponse}

/-- The hits of all the pages, in the order in which they arrive. -/
def returnedHits (rs : List QueryResponse) : List (UInt64 × EntityRlp) := rs.flatMap (·.hits)

omit [Keccak] [RoaringFormat] in
theorem map_returnedHits : (returnedHits rs).map (·.1) = returnedIds rs := List.map_flatMap

theorem Follows.length_eq {visits : List (World × Option UInt64)} {cursor : Option (List Char)}
    (h : Follows q visits cursor rs) : visits.length = rs.length := by
  induction h with
  | last hrun hend => rfl
  | next hrun hnext hrest ih => exact congrArg (· + 1) ih

/-- The walk over one state. -/
theorem exists_walk_state (hw : Answers w q) (sizes : ℕ → Option UInt64) :
    ∃ n rs, Walk q ((List.range n).map fun k => (w, sizes k)) none rs := by
  obtain ⟨r, next, hrun, hpage⟩ := hw.response (sizes 0) none
  cases next with
  | none => exact ⟨1, [r], Walk.last hrun hpage⟩
  | some d =>
    have hd : ∀ c, some d = some c → c.toNat ≤ d.toNat := by
      intro c hc
      rw [Option.some.inj hc]
    obtain ⟨n, rs, hwalk⟩ := exists_walk_of_cursor (fun k => (w, sizes (k + 1))) (fun _ => hw)
      d.toNat hd (by simp)
    refine ⟨n + 1, r :: rs, ?_⟩
    rw [List.range_succ_eq_map, List.map_cons, List.map_map]
    exact Walk.cons hrun hpage hwalk

/-- The walk over one state has met exactly what the query finds there. -/
theorem Walk.mem_returnedHits {n : ℕ} {sizes : ℕ → Option UInt64}
    (h : Walk q ((List.range n).map fun k => (w, sizes k)) none rs) {i : UInt64} {e : EntityRlp} :
    (i, e) ∈ returnedHits rs ↔
      (∃ b, q.evaluate w = .ok b ∧ i ∈ b) ∧ resolveId w i = .ok (some e) := by
  have hfound : ∀ x ∈ returnedHits rs,
      (∃ b, q.evaluate w = .ok b ∧ x.1 ∈ b) ∧ resolveId w x.1 = .ok (some x.2) := by
    intro x hx
    obtain ⟨r, hr, hx⟩ := List.mem_flatMap.mp hx
    -- The response answers one of the visits, and all of them are to this state.
    obtain ⟨m, hm, rfl⟩ := List.getElem_of_mem hr
    have hlen := h.follows.length_eq
    have hm' : m < ((List.range n).map fun k => (w, sizes k)).length := hlen ▸ hm
    have hzip : m < (((List.range n).map fun k => (w, sizes k)).zip rs).length := by
      rw [List.length_zip]
      exact lt_min hm' hm
    have hpair := h.found _ (List.getElem_mem hzip)
    rw [List.getElem_zip, List.getElem_map] at hpair
    exact hpair x hx
  constructor
  · exact hfound (i, e)
  · rintro ⟨⟨b, hb, hi⟩, hres⟩
    have hmatch : ∀ v ∈ (List.range n).map (fun k => (w, sizes k)), Matches v.1 q i := by
      intro v hv
      obtain ⟨k, -, rfl⟩ := List.mem_map.mp hv
      exact ⟨b, e, hb, hi, hres⟩
    have hid := h.complete i hmatch (by simp)
    rw [← map_returnedHits] at hid
    obtain ⟨⟨j, f⟩, hx, rfl⟩ := List.mem_map.mp hid
    have hsame := (hfound _ hx).2.symm.trans hres
    rwa [← Option.some.inj (Except.ok.inj hsame)]

end Pages

section Answers

variable [Host] {S : Scope} {chainId : UInt64} {Q L : Set Bytes} {w : World} {h : History}

/-- **The pages of a query** on a state whose index follows the records. -/
theorem IndexHolds.pages (hI : IndexHolds S chainId Q L w) (hL : L ⊆ Q)
    (hN : Numbered S chainId w h) (hR : Registered S chainId w h) (hall : annotAll ∈ Q)
    (hcovers : S.Covers annotAll []) (q : Query)
    (hq : q.Within (pairsUnder S Q) (keysUnder S L)) (sizes : ℕ → Option UInt64) :
    ∃ n rs, Follows q ((List.range n).map fun k => (w, sizes k)) none rs ∧
      ((returnedHits rs).map (·.1)).Pairwise (· > ·) ∧
      ∀ i e, (i, e) ∈ returnedHits rs ↔ ∃ a, a ≠ 0 ∧ Live S chainId w a e ∧
        readEntityId w a = i ∧ Satisfies e.annotations q := by
  obtain ⟨b, hb, hmem⟩ := hI.evaluates hL hN hR hall hcovers q hq
  -- Every ID that the query finds resolves, so that the walk comes to its end.
  have hw : Answers w q := by
    refine ⟨b, hb, fun i hi => ?_⟩
    obtain ⟨e, he, -⟩ := (hmem i).mp hi
    obtain ⟨r, hr, -⟩ := hN.resolves he
    exact ⟨r, hr⟩
  obtain ⟨n, rs, hwalk⟩ := exists_walk_state hw sizes
  refine ⟨n, rs, hwalk.follows, by rw [map_returnedHits]; exact hwalk.falling, fun i e => ?_⟩
  rw [hwalk.mem_returnedHits]
  constructor
  · rintro ⟨⟨b', hb', hi⟩, hres⟩
    obtain rfl := Except.ok.inj (hb.symm.trans hb')
    obtain ⟨f, hf, hsat⟩ := (hmem i).mp hi
    obtain ⟨r, hr, hiff⟩ := hN.resolves hf
    obtain ⟨a, hzero, ha, hid⟩ := (hiff e).mp (Except.ok.inj (hr.symm.trans hres))
    rw [hN.liveId_unique hf ⟨a, ha, hid⟩] at hsat
    exact ⟨a, hzero, ha, hid, hsat⟩
  · rintro ⟨a, hzero, ha, hid, hsat⟩
    have hlive : LiveId S chainId w i e := ⟨a, ha, hid⟩
    obtain ⟨r, hr, hiff⟩ := hN.resolves hlive
    refine ⟨⟨b, hb, (hmem i).mpr ⟨e, hlive, hsat⟩⟩, ?_⟩
    rw [hr, (hiff e).mpr ⟨a, hzero, ha, hid⟩]

variable {steps : List Chain.Step}

/-- **Queries are answered from the live entities**: after every run with fewer than `2 ^ 64`
    creates in which only entities look like entities, values keep their tiers and calls keep the
    slots, a client that walks the pages of a query, whatever sizes it asks for, comes to the last
    one and has met the live entities that satisfy the query, each once, the newest first, and
    nothing else. -/
theorem pages_run (hrun : Chain.AllowedRun chainId S.foreign steps)
    (hsound : SoundHistory S (Chain.run steps).history)
    (honly : OnlyEntitiesIn S chainId (Chain.run steps).history)
    (hlt : creates (Chain.run steps).history < 2 ^ 64) (hL : L ⊆ Q)
    (hnames : NamesKeysIn S chainId Q (Chain.run steps).history)
    (htiers : OneTierIn S chainId Q (Chain.run steps).history)
    (hslots : KeepsSlotsIn L (Chain.run steps).history) (hall : annotAll ∈ Q)
    (hcovers : S.Covers annotAll []) :
    ∀ q : Query, q.Within (pairsUnder S Q) (keysUnder S L) → ∀ sizes : ℕ → Option UInt64,
      ∃ n rs, Follows q ((List.range n).map fun k => ((Chain.run steps).world, sizes k)) none rs ∧
        ((returnedHits rs).map (·.1)).Pairwise (· > ·) ∧
        ∀ i e, (i, e) ∈ returnedHits rs ↔
          ∃ a, a ≠ 0 ∧ Live S chainId (Chain.run steps).world a e ∧
            readEntityId (Chain.run steps).world a = i ∧ Satisfies e.annotations q := by
  have hI := indexHolds_run hrun hsound honly hlt hL hnames htiers hslots
  have hN := (numbered_run hrun hsound honly hlt).1
  have hR := (registered_run hrun hsound).1
  exact fun q hq sizes => hI.pages hL hN hR hall hcovers q hq sizes

/-- **Points on the built-in keys are answered from the live entities** after every run with fewer
    than `2 ^ 64` creates in which only entities look like entities. -/
theorem builtInPages_run (hrun : Chain.AllowedRun chainId S.foreign steps)
    (hsound : SoundHistory S (Chain.run steps).history)
    (honly : OnlyEntitiesIn S chainId (Chain.run steps).history)
    (hlt : creates (Chain.run steps).history < 2 ^ 64) (hcovers : S.Covers annotAll []) :
    ∀ q : Query, q.Within (pairsUnder S {k | k ∈ builtInKeys ∧ k ≠ annotKey}) ∅ →
      ∀ sizes : ℕ → Option UInt64,
      ∃ n rs, Follows q ((List.range n).map fun k => ((Chain.run steps).world, sizes k)) none rs ∧
        ((returnedHits rs).map (·.1)).Pairwise (· > ·) ∧
        ∀ i e, (i, e) ∈ returnedHits rs ↔
          ∃ a, a ≠ 0 ∧ Live S chainId (Chain.run steps).world a e ∧
            readEntityId (Chain.run steps).world a = i ∧ Satisfies e.annotations q := by
  have hI := indexHolds_builtIn hrun hsound honly hlt
  have hN := (numbered_run hrun hsound honly hlt).1
  have hR := (registered_run hrun hsound).1
  have hall : annotAll ∈ builtInKeys ∧ annotAll ≠ annotKey := by decide
  have hkeys : keysUnder S (∅ : Set Bytes) = ∅ := by
    ext k
    exact iff_of_false (fun hk => hk.1) id
  intro q hq sizes
  rw [← hkeys] at hq
  exact hI.pages (Set.empty_subset _) hN hR hall hcovers q hq sizes

end Answers

/-- What the development caller owns and what expires after block 10. -/
def ownedLateQuery : Query :=
  .and (.eq (.builtIn .owner) (addressBytes DevChain.devCaller))
    (.gt (.builtIn .expiration) (u64Bytes 10))

/-- What the development caller owns or does not. -/
def ownedQuery : Query :=
  .or (.eq (.builtIn .owner) (addressBytes DevChain.devCaller))
    (.neq (.builtIn .owner) (addressBytes DevChain.devCaller))

theorem covers_firstEntity {a : Annotation} (ha : a ∈ DevChain.firstEntity.annotations) :
    DevChain.tradeScope.Covers a.key a.value :=
  DevChain.covers_tradeScope (DevChain.annotations_openLive (i := 0) rfl a ha)

theorem covers_owner_tradeScope :
    DevChain.tradeScope.Covers annotOwner (addressBytes DevChain.devCaller) :=
  covers_firstEntity (owner_mem_annotations DevChain.firstEntity)

theorem covers_all_tradeScope : DevChain.tradeScope.Covers annotAll [] :=
  covers_firstEntity (a := ⟨annotAll, [], false⟩) List.mem_cons_self

theorem within_ownedLateQuery : ownedLateQuery.Within (pairsUnder DevChain.tradeScope Set.univ)
    (keysUnder DevChain.tradeScope Set.univ) :=
  ⟨⟨trivial, covers_owner_tradeScope⟩, trivial,
    (covers_firstEntity (expiration_mem_annotations DevChain.firstEntity)).index⟩

/-- Both entities, on two pages. -/
theorem pages_openRun : ∃ n rs,
    Follows ownedLateQuery
      ((List.range n).map fun _ => ((Chain.run DevChain.openRun).world, some 1)) none rs ∧
    ((returnedHits rs).map (·.1)).Pairwise (· > ·) ∧
    ∀ i e, (i, e) ∈ returnedHits rs ↔ ∃ a, a ≠ 0 ∧
      Live DevChain.tradeScope devChainId (Chain.run DevChain.openRun).world a e ∧
      readEntityId (Chain.run DevChain.openRun).world a = i ∧
      Satisfies e.annotations ownedLateQuery :=
  pages_run DevChain.facts_openRun.allowed DevChain.facts_openRun.sound
    DevChain.facts_openRun.only DevChain.facts_openRun.creates (subset_refl Set.univ)
    (namesKeysIn_of_facts Set.univ DevChain.facts_openRun)
    (oneTierIn_of_facts Set.univ DevChain.facts_openRun) (keepsSlotsIn_openRun Set.univ) trivial
    covers_all_tradeScope ownedLateQuery within_ownedLateQuery fun _ => some 1

theorem builtInPages_openRun : ∃ n rs,
    Follows ownedQuery
      ((List.range n).map fun _ => ((Chain.run DevChain.openRun).world, some 1)) none rs ∧
    ((returnedHits rs).map (·.1)).Pairwise (· > ·) ∧
    ∀ i e, (i, e) ∈ returnedHits rs ↔ ∃ a, a ≠ 0 ∧
      Live DevChain.tradeScope devChainId (Chain.run DevChain.openRun).world a e ∧
      readEntityId (Chain.run DevChain.openRun).world a = i ∧
      Satisfies e.annotations ownedQuery := by
  have howner : annotOwner ∈ builtInKeys ∧ annotOwner ≠ annotKey := by decide
  exact builtInPages_run DevChain.facts_openRun.allowed DevChain.facts_openRun.sound
    DevChain.facts_openRun.only DevChain.facts_openRun.creates covers_all_tradeScope ownedQuery
    ⟨⟨howner, covers_owner_tradeScope⟩, howner, covers_owner_tradeScope⟩ fun _ => some 1

end Arkiv
