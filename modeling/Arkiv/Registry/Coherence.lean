import Mathlib
import Arkiv.Registry.EventLog
import Arkiv.Registry.IdMaps

/-!
# The pair bitmaps follow the records

The bitmap of a key and a value holds the IDs of the live entities that carry
the pair, as long as removals name stored keys and updates do not move a pair
from one tier to the other while they keep it in the first.

## Main definitions

- `PairCoherent` — the bitmaps are the carriers of the pairs
- `pairCoherent_run` — they are, after every run that meets the conditions
-/

namespace Arkiv

open ByteString

section Runs

variable [Host]

/-- The bitmap of every pair holds exactly the IDs of the live entities that carry it. -/
def PairCoherent (S : Scope) (chainId : UInt64) (w : World) : Prop :=
  ∀ k v, S.Covers k v → ∃ b, readPairBitmap w k v = .ok b ∧
    ∀ i, i ∈ b ↔ ∃ a e, Live S chainId w a e ∧ readEntityId w a = i ∧ Carries e.annotations k v

variable {S : Scope} {chainId : UInt64} {w w' : World} {h : History} {x : OpTransition}

/-- A new record adds its ID to the pairs that it carries. -/
theorem PairCoherent.mint (hP : PairCoherent S chainId x.pre) (hmade : Made S chainId h x)
    (hN : Numbered S chainId x.pre h) {e : EntityRlp} (hx : x.IsCreate)
    (hc : MintChange S chainId x.pre x.post x.label.ctx e)
    {slots : List (SlotName × B256)} {event : EntityOperation}
    (heffect : Effect x.pre x.post x.target e.encodeAsCode (entityCount x.pre) [] e.annotations
      slots event) : PairCoherent S chainId x.post := by
  intro k v hkv
  obtain ⟨b, hb, hmem⟩ := hP k v hkv
  have htarget : S.EntityAt chainId x.target := by
    rw [hc.target hx]
    exact hc.entityAt
  obtain ⟨b', hb', hmem'⟩ := heffect.postings htarget (by simp [Scope.CoversAll]) hc.covers hkv hb
  refine ⟨b', hb', fun i => ?_⟩
  -- The new ID is the count, which is above every ID in use.
  have hfresh : ∀ a f, Live S chainId x.pre a f → readEntityId x.pre a ≠ entityCount x.pre := by
    intro a f hf heq
    have hid := hN.id_lt a f hf
    rw [heq, hN.count] at hid
    exact lt_irrefl _ hid
  have hid : ∀ a f, Live S chainId x.pre a f → readEntityId x.post a = readEntityId x.pre a :=
    fun a f hf => readEntityId_congr (hc.addr_slot hmade.registered hf)
  rw [hmem', hmem]
  constructor
  · intro hi
    split at hi
    · next heq =>
      rcases hi with hcarries | ⟨⟨a, f, hf, hidf, -⟩, -⟩
      · exact ⟨_, e, hc.live_new, hc.readEntityId_new.trans heq.symm, hcarries⟩
      · exact absurd (hidf.trans heq) (hfresh a f hf)
    · obtain ⟨a, f, hf, hidf, hcarries⟩ := hi
      exact ⟨a, f, hc.live_of_live hmade.registered hf, (hid a f hf).trans hidf, hcarries⟩
  · rintro ⟨a, f, hf, rfl, hcarries⟩
    have hold := hc.live_iff.mp hf
    split at hold
    · next heq =>
      subst hold
      rw [heq, if_pos hc.readEntityId_new]
      exact .inl hcarries
    · rw [hid a f hold, if_neg (hfresh a f hold)]
      exact ⟨a, f, hold, rfl, hcarries⟩

/-- A rewritten record moves its ID to the pairs that it carries now. -/
theorem PairCoherent.rewrite (hP : PairCoherent S chainId x.pre) (hmade : Made S chainId h x)
    (hN : Numbered S chainId x.pre h) {e e' : EntityRlp} {rem ins : List Annotation}
    (hc : RewriteChange S chainId x.pre x.post x.target e e') (hdiff : RecordDiff e e' rem ins)
    (hrepost : Reposts e' rem ins) {slots : List (SlotName × B256)} {event : EntityOperation}
    (heffect : Effect x.pre x.post x.target e'.encodeAsCode (readEntityId x.pre x.target) rem ins
      slots event) : PairCoherent S chainId x.post := by
  intro k v hkv
  obtain ⟨b, hb, hmem⟩ := hP k v hkv
  have hrec := hmade.registered.recorded _ e hc.live
  obtain ⟨b', hb', hmem'⟩ := heffect.postings hc.live.1
    (fun a ha => hrec.covers a (hdiff.rem_old a ha)) (fun a ha => hc.covers a (hdiff.ins_new a ha))
    hkv hb
  have hid : ∀ a f, Live S chainId x.pre a f → readEntityId x.post a = readEntityId x.pre a :=
    fun a f hf => readEntityId_congr (hc.addr_slot (hmade.registered.recorded a f hf).addr_mem)
  have hnew : Live S chainId x.post x.target e' := by
    rw [hc.live_iff, if_pos rfl]
  refine ⟨b', hb', fun i => ?_⟩
  rw [hmem']
  split
  · next heq =>
    -- At the ID of the record the postings are those of the new record.
    have hold : i ∈ b ↔ Carries e.annotations k v := by
      rw [hmem, heq]
      constructor
      · rintro ⟨a, f, hf, hidf, hcarries⟩
        obtain rfl := hN.distinct hf hc.live hidf
        rwa [← hf.2.unique hc.live.2]
      · intro hcarries
        exact ⟨_, e, hc.live, rfl, hcarries⟩
    -- What was removed and is still carried has been posted again: this is where tiers matter.
    have hcarried : (Carries ins k v ∨ i ∈ b ∧ ¬Carries rem k v) ↔ Carries e'.annotations k v := by
      rw [hold]
      constructor
      · rintro (⟨a, ha, hak⟩ | ⟨⟨a, ha, hak⟩, hno⟩)
        · exact ⟨a, hdiff.ins_new a ha, hak⟩
        · exact ⟨a, hdiff.kept a ha fun hrem => hno ⟨a, hrem, hak⟩, hak⟩
      · rintro ⟨a, ha, rfl, rfl⟩
        by_cases hins : Carries ins a.key a.value
        · exact .inl hins
        · have hmem_e : a ∈ e.annotations := by
            by_contra hno
            exact hins ⟨a, hdiff.born a ha hno, rfl, rfl⟩
          refine .inr ⟨⟨a, hmem_e, rfl, rfl⟩, ?_⟩
          rintro ⟨r, hr, hrk, hrv⟩
          have hpost := hrepost r hr ⟨a, ha, hrk.symm, hrv.symm⟩
          rw [hrk, hrv] at hpost
          exact hins hpost
    rw [hcarried, heq]
    constructor
    · intro hcarries
      exact ⟨_, e', hnew, hid _ e hc.live, hcarries⟩
    · rintro ⟨a, f, hf, hidf, hcarries⟩
      have hlive := hc.live_iff.mp hf
      split at hlive
      · rwa [← hlive]
      · next hne =>
        rw [hid a f hlive] at hidf
        exact absurd (hN.distinct hlive hc.live hidf) hne
  · next hne =>
    rw [hmem]
    constructor
    · rintro ⟨a, f, hf, rfl, hcarries⟩
      refine ⟨a, f, ?_, hid a f hf, hcarries⟩
      rw [hc.live_iff, if_neg]
      · exact hf
      · rintro rfl
        exact hne rfl
    · rintro ⟨a, f, hf, hidf, hcarries⟩
      have hlive := hc.live_iff.mp hf
      split at hlive
      · next heq =>
        rw [heq, hid _ e hc.live] at hidf
        exact absurd hidf.symm hne
      · exact ⟨a, f, hlive, (hid a f hlive).symm.trans hidf, hcarries⟩

/-- A removed record takes its ID out of the pairs that it carried. -/
theorem PairCoherent.remove (hP : PairCoherent S chainId x.pre) (hmade : Made S chainId h x)
    (hN : Numbered S chainId x.pre h) {e : EntityRlp}
    (hc : RemoveChange S chainId x.pre x.post x.target e) {slots : List (SlotName × B256)}
    {event : EntityOperation}
    (heffect : Effect x.pre x.post x.target [] (readEntityId x.pre x.target) e.annotations [] slots
      event) : PairCoherent S chainId x.post := by
  intro k v hkv
  obtain ⟨b, hb, hmem⟩ := hP k v hkv
  have hrec := hmade.registered.recorded _ e hc.live
  obtain ⟨b', hb', hmem'⟩ := heffect.postings hc.live.1 hrec.covers (by simp [Scope.CoversAll]) hkv hb
  have hid : ∀ a f, Live S chainId x.pre a f → a ≠ x.target →
      readEntityId x.post a = readEntityId x.pre a :=
    fun a f hf hne => readEntityId_congr
      (hc.addr_slot (hmade.registered.recorded a f hf).addr_mem hne)
  refine ⟨b', hb', fun i => ?_⟩
  rw [hmem', hmem]
  split
  · next heq =>
    refine iff_of_false ?_ ?_
    -- All that the removed record carried leaves the index, and no other record has its ID.
    · rintro (hcarries | ⟨⟨a, f, hf, hidf, hcarries⟩, hno⟩)
      · exact carries_nil hcarries
      · obtain rfl := hN.distinct hf hc.live (hidf.trans heq)
        rw [hf.2.unique hc.live.2] at hcarries
        exact hno hcarries
    · rintro ⟨a, f, hf, hidf, -⟩
      obtain ⟨hne, hf⟩ := hc.live_iff.mp hf
      rw [hid a f hf hne] at hidf
      exact hne (hN.distinct hf hc.live (hidf.trans heq))
  · next hne =>
    constructor
    · rintro ⟨a, f, hf, rfl, hcarries⟩
      have hneq : a ≠ x.target := by
        rintro rfl
        exact hne rfl
      exact ⟨a, f, hc.live_iff.mpr ⟨hneq, hf⟩, hid a f hf hneq, hcarries⟩
    · rintro ⟨a, f, hf, hidf, hcarries⟩
      obtain ⟨hneq, hf⟩ := hc.live_iff.mp hf
      exact ⟨a, f, hf, (hid a f hf hneq).symm.trans hidf, hcarries⟩

/-- **Step**: an operation that meets the conditions keeps the bitmaps coherent. -/
theorem PairCoherent.step (hP : PairCoherent S chainId x.pre) (hmade : Made S chainId h x)
    (hN : Numbered S chainId x.pre h) (honly : OnlyEntities S chainId x.pre)
    (hnames : RemovesStoredKey S chainId x) (htiers : KeepsTiers x) :
    PairCoherent S chainId x.post := by
  cases hmade.edited honly with
  | mint e m hx hm hc heffect => exact hP.mint hmade hN hx hc heffect
  | rewrite e e' rem ins slots hx htype hc hdiff hrepost hslots heffect =>
    exact hP.rewrite hmade hN hc hdiff (hrepost htiers) heffect
  | remove e hx hc heffect =>
    rw [hnames _ e hx hc.live] at heffect
    exact hP.remove hmade hN hc heffect

theorem PairCoherent.congr (hP : PairCoherent S chainId w)
    (hcode : ∀ a, (S.EntityAt chainId a ∨ ∃ p ∈ S.accounts, a = derivedAddress p) →
      w'.code a = w.code a) (hslot : ∀ s, w'.slot s = w.slot s) : PairCoherent S chainId w' := by
  intro k v hkv
  obtain ⟨b, hb, hmem⟩ := hP k v hkv
  refine ⟨b, (readPairBitmap_congr (hcode _ (.inr ⟨_, hkv.pair, rfl⟩))).trans hb, fun i => ?_⟩
  have hlive : ∀ a e, Live S chainId w' a e ↔ Live S chainId w a e := fun a e =>
    and_congr_right fun ha => LiveAt.congr (hcode a (.inl ha)) e
  have hread : ∀ a, readEntityId w' a = readEntityId w a := fun a => readEntityId_congr (hslot _)
  simp only [hlive, hread]
  exact hmem i

/-- **Tier-1 coherence**: after every run with fewer than `2 ^ 64` creates in which only entities
    look like entities, removals name stored keys and updates keep tiers, the pair bitmaps hold
    exactly the IDs of the live entities that carry the pairs. -/
theorem pairCoherent_run {steps : List Chain.Step} (hrun : Chain.AllowedRun chainId S.foreign steps)
    (hsound : SoundHistory S (Chain.run steps).history)
    (honly : OnlyEntitiesIn S chainId (Chain.run steps).history)
    (hlt : creates (Chain.run steps).history < 2 ^ 64)
    (hnames : ∀ x ∈ (Chain.run steps).history, RemovesStoredKey S chainId x)
    (htiers : ∀ x ∈ (Chain.run steps).history, KeepsTiers x) :
    PairCoherent S chainId (Chain.run steps).world := by
  have hsplits := (numbered_run hrun hsound honly hlt).2
  have hall := sound_invariant (Q := fun w h =>
      Runs.AllSplits (fun h (x : OpTransition) => Numbered S chainId x.pre h) h →
      OnlyEntitiesIn S chainId h → (∀ x ∈ h, RemovesStoredKey S chainId x) →
      (∀ x ∈ h, KeepsTiers x) → PairCoherent S chainId w) ?_ (fun h x hmade _ hQ hN honly hnames ht => ?_)
    (fun w h addr acc _ _ hQ ha hN honly hnames ht => ?_) (fun w h f hQ => hQ)
    (fun w h hR hQ hN honly hnames ht => ?_) hrun hsound
  · exact hall.2 hsplits honly hnames htiers
  · intro _ _ _ _ k v hkv
    refine ⟨Bitmap.new, rfl, fun i => iff_of_false (Bitmap.not_mem_new i) ?_⟩
    rintro ⟨a, e, he, -⟩
    exact not_liveAt_of_nil rfl e he.2
  · have hx : x ∈ h ++ [x] := by simp
    have hP := hQ hN.init (fun y hy => honly y (List.mem_append_left _ hy))
      (fun y hy => hnames y (List.mem_append_left _ hy))
      (fun y hy => ht y (List.mem_append_left _ hy))
    exact hP.step hmade (hN h x [] rfl) (honly x hx) (hnames x hx) (ht x hx)
  · refine (hQ hN honly hnames ht).congr (fun a hcase => ?_) (World.slot_foreign ha)
    rcases hcase with he | ⟨p, hp, rfl⟩
    · exact World.code_foreign ha a he
    · refine World.code_setAccount_of_ne ?_
      rintro rfl
      exact S.foreign_not_derived p hp ha
  · exact (hQ hN honly hnames ht).congr (fun a _ => w.code_prune a) (World.slot_prune hR.hosted)

end Runs

/-- The development run in which a deletion leaves the posting of the stored key behind. -/
theorem not_pairCoherent_aliasRun : ¬∀ (S : Scope) (chainId : UInt64) (steps : List Chain.Step),
    Chain.AllowedRun chainId S.foreign steps → SoundHistory S (Chain.run steps).history →
    OnlyEntitiesIn S chainId (Chain.run steps).history →
    creates (Chain.run steps).history < 2 ^ 64 → PairCoherent S chainId (Chain.run steps).world := by
  intro hclaim
  have hfacts := DevChain.facts_aliasRun
  have hcreates : creates (Chain.run DevChain.aliasRun).history < 2 ^ 64 := by
    rw [hfacts.creates]
    decide
  have hcoherent := hclaim DevChain.aliasScope devChainId DevChain.aliasRun
    DevChain.allowedRun_aliasRun hfacts.sound DevChain.onlyEntitiesIn_aliasRun hcreates
  obtain ⟨b, hb, hmem⟩ := hcoherent _ _ DevChain.covers_aliasScope
  obtain ⟨b', hb', h0⟩ := hfacts.posted
  obtain rfl := Except.ok.inj (hb.symm.trans hb')
  obtain ⟨a, e, he, -⟩ := (hmem 0).mp h0
  rw [DevChain.eq_of_entityAt_aliasScope he.1] at he
  exact not_liveAt_of_nil hfacts.gone e he.2

/-- No pair of the development run is carried in two tiers, so no update moves one. -/
theorem keepsTiers_of_facts {steps : List Chain.Step} (h : DevChain.RunFacts steps)
    (x : OpTransition) (hx : x ∈ (Chain.run steps).history) : KeepsTiers x := by
  rintro htype e attributes auth hload hconv hauth a hold hnew b hb hkey hvalue -
  have hlive : Live DevChain.tradeScope devChainId x.pre x.target e := ⟨h.only x hx _ _ hload, hload⟩
  have ha : a ∈ DevChain.tradeAnnotations :=
    (h.records x hx _ e (.inl hlive)).1 a (updatable_subset_annotations hold)
  have hb' : b ∈ DevChain.tradeAnnotations := h.posts x hx b (.update htype hconv hauth hb)
  have htier := DevChain.tiers_tradeAnnotations b hb' a ha hkey hvalue
  have hsame : b = a := by
    cases a
    cases b
    simp_all
  exact hnew (hsame ▸ hb)

theorem pairCoherent_tradeRun :
    PairCoherent DevChain.tradeScope devChainId (Chain.run DevChain.tradeRun).world :=
  pairCoherent_run DevChain.facts_tradeRun.allowed DevChain.facts_tradeRun.sound
    DevChain.facts_tradeRun.only DevChain.facts_tradeRun.creates
    (removesStoredKey_of_facts DevChain.facts_tradeRun) (keepsTiers_of_facts DevChain.facts_tradeRun)

end Arkiv
