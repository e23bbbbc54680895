import Mathlib
import Arkiv.Model.Query
import Arkiv.Registry.Edit
import Arkiv.Registry.IdMaps

/-!
# What an operation leaves alone

All entities share the bitmaps and the system account. An accepted operation
touches the bits, the account and the map entries of its own entity, and the
nonces of its caller.

## Main definitions

- `OpTransition.entityId` — the ID that the operation creates or acts on
- `Isolated` — everything else is as before
- `isolated_run` — so it is for every operation of a run
-/

namespace Arkiv

open ByteString

section Runs

variable [Host]

/-- The ID that the operation creates or acts on. -/
def OpTransition.entityId (x : OpTransition) : UInt64 :=
  if x.IsCreate then entityCount x.pre else readEntityId x.pre x.target

/-- Two reads that both succeed and agree on all IDs but one. -/
def AgreeOff (i : UInt64) (r r' : Except DbError Bitmap) : Prop :=
  ∃ b b', r = .ok b ∧ r' = .ok b' ∧ ∀ j, j ≠ i → (j ∈ b' ↔ j ∈ b)

/-- Other entities keep their account and their map entries, other callers their nonces, and the
    counter counts creates. -/
structure KeepsOthers (S : Scope) (chainId : UInt64) (x : OpTransition) : Prop where
  otherId : ∀ a e, Live S chainId x.pre a e → a ≠ x.target → readEntityId x.pre a ≠ x.entityId
  code : ∀ a e, Live S chainId x.pre a e → a ≠ x.target → x.post.code a = x.pre.code a
  addrToId : ∀ a e, Live S chainId x.pre a e → a ≠ x.target →
    x.post.slot (slotAddrToId a) = x.pre.slot (slotAddrToId a)
  idToAddr : ∀ a e, Live S chainId x.pre a e → a ≠ x.target →
    x.post.slot (slotIdToAddr (readEntityId x.pre a)) =
      x.pre.slot (slotIdToAddr (readEntityId x.pre a))
  nonces : ∀ o, o ≠ x.label.ctx.caller → .nonces o ∈ S.slots →
    x.post.slot (slotNonces o) = x.pre.slot (slotNonces o)
  references : ∀ o m, o ≠ x.label.ctx.caller → .payloadReferenceNonce o m ∈ S.slots →
    x.post.slot (slotPayloadReferenceNonce o m) = x.pre.slot (slotPayloadReferenceNonce o m)
  count : entityCount x.post = if x.IsCreate then entityCount x.pre + 1 else entityCount x.pre

/-- **The frame of an accepted operation**: next to what it keeps of the others, all bitmaps agree
    on the other IDs, and so do the results of equality and inclusion queries. -/
structure Isolated (S : Scope) (chainId : UInt64) (x : OpTransition) : Prop
    extends KeepsOthers S chainId x where
  bitmaps : ∀ k v, S.Covers k v →
    AgreeOff x.entityId (readPairBitmap x.pre k v) (readPairBitmap x.post k v)
  equality : ∀ key v, S.Covers key.pairKeyBytes v →
    AgreeOff x.entityId ((Query.eq key v).evaluate x.pre) ((Query.eq key v).evaluate x.post)
  inclusion : ∀ key vs, (∀ v ∈ vs, S.Covers key.pairKeyBytes v) →
    AgreeOff x.entityId ((Query.isIn key vs).evaluate x.pre) ((Query.isIn key vs).evaluate x.post)

variable {S : Scope} {chainId : UInt64} {w w' : World} {h : History} {x : OpTransition}

/-- Unions of bitmaps that agree off an ID agree off it. -/
theorem agreeOff_unionOfPairs {i : UInt64} {k : Bytes} {vs : List Bytes}
    (hvs : ∀ v ∈ vs, AgreeOff i (readPairBitmap w k v) (readPairBitmap w' k v)) :
    AgreeOff i (unionOfPairs w k vs) (unionOfPairs w' k vs) := by
  have hfold : ∀ acc acc' : Bitmap, (∀ j, j ≠ i → (j ∈ acc' ↔ j ∈ acc)) →
      AgreeOff i (vs.foldlM (fun acc v => do return acc.unionWith (← readPairBitmap w k v)) acc)
        (vs.foldlM (fun acc v => do return acc.unionWith (← readPairBitmap w' k v)) acc') := by
    induction vs with
    | nil => exact fun acc acc' hacc => ⟨acc, acc', rfl, rfl, hacc⟩
    | cons v vs ih =>
      intro acc acc' hacc
      obtain ⟨b, b', hb, hb', hagree⟩ := hvs v List.mem_cons_self
      rw [List.foldlM_cons, List.foldlM_cons, hb, hb']
      refine ih (fun u hu => hvs u (List.mem_cons_of_mem _ hu)) _ _ fun j hj => ?_
      rw [Bitmap.mem_unionWith, Bitmap.mem_unionWith, hacc j hj, hagree j hj]
  exact hfold _ _ fun _ _ => Iff.rfl

/-- The bitmaps of the covered pairs can be read. -/
def Readable (S : Scope) (w : World) : Prop :=
  ∀ k v, S.Covers k v → ∃ b, readPairBitmap w k v = .ok b

theorem Made.covers_deleted (hmade : Made S chainId h x) {e : EntityRlp}
    (hlive : Live S chainId x.pre x.target e) (hx : x.Removes x.target) :
    S.CoversAll (deletedAnnotations e x.label.op.entityKey) := by
  intro y hy
  rcases mem_deletedAnnotations hy with hy | rfl
  · exact (hmade.registered.recorded _ e hlive).covers y hy
  · obtain ⟨hpair, hindex⟩ := hmade.sound.accounts.posts _ (.remove hx.1)
    exact ⟨show (0 : UInt8) ∉ annotKey by decide, hpair, hindex⟩

/-- An operation changes the bitmaps at its own ID only. -/
theorem Made.agreeOff (hmade : Made S chainId h x) (honly : OnlyEntities S chainId x.pre)
    {k v : Bytes} (hkv : S.Covers k v) {b : Bitmap} (hb : readPairBitmap x.pre k v = .ok b) :
    AgreeOff x.entityId (readPairBitmap x.pre k v) (readPairBitmap x.post k v) := by
  have hnil : S.CoversAll [] := by simp [Scope.CoversAll]
  -- One effect, whose ID is that of the operation.
  have hof : ∀ {code : Bytes} {i : UInt64} {rem ins : List Annotation}
      {slots : List (SlotName × B256)} {event : EntityOperation},
      Effect x.pre x.post x.target code i rem ins slots event → S.EntityAt chainId x.target →
      S.CoversAll rem → S.CoversAll ins → i = x.entityId →
      AgreeOff x.entityId (readPairBitmap x.pre k v) (readPairBitmap x.post k v) := by
    rintro code i rem ins slots event heffect htarget hrem hins rfl
    obtain ⟨b', hb', hmem⟩ := heffect.postings htarget hrem hins hkv hb
    refine ⟨b, b', hb, hb', fun j hj => ?_⟩
    rw [hmem, if_neg hj]
  cases hmade.edited honly with
  | mint e m hx hm hc heffect =>
    refine hof heffect ?_ hnil hc.covers (by rw [OpTransition.entityId, if_pos hx])
    rw [hc.target hx]
    exact hc.entityAt
  | rewrite e e' rem ins slots hx htype hc hdiff hrepost hslots heffect =>
    refine hof heffect hc.live.1 (fun a ha => ?_) (fun a ha => hc.covers a (hdiff.ins_new a ha))
      (by rw [OpTransition.entityId, if_neg hx])
    exact (hmade.registered.recorded _ e hc.live).covers a (hdiff.rem_old a ha)
  | remove e hx hc heffect =>
    exact hof heffect hc.live.1 (hmade.covers_deleted hc.live hx) hnil
      (by rw [OpTransition.entityId, if_neg hx.not_isCreate])

theorem Readable.step (hw : Readable S x.pre) (hmade : Made S chainId h x)
    (honly : OnlyEntities S chainId x.pre) : Readable S x.post := by
  intro k v hkv
  obtain ⟨b, hb⟩ := hw k v hkv
  obtain ⟨-, b', -, hb', -⟩ := hmade.agreeOff honly hkv hb
  exact ⟨b', hb'⟩

theorem Readable.congr (hw : Readable S w) (hcode : ∀ p ∈ S.accounts,
    w'.code (derivedAddress p) = w.code (derivedAddress p)) : Readable S w' := by
  intro k v hkv
  obtain ⟨b, hb⟩ := hw k v hkv
  exact ⟨b, (readPairBitmap_congr (hcode _ hkv.pair)).trans hb⟩

/-- The bitmaps can be read before every accepted operation of a run. -/
theorem readable_run {steps : List Chain.Step} (hrun : Chain.AllowedRun chainId S.foreign steps)
    (hsound : SoundHistory S (Chain.run steps).history)
    (honly : OnlyEntitiesIn S chainId (Chain.run steps).history) :
    ∀ x ∈ (Chain.run steps).history, Readable S x.pre := by
  have hne : ∀ addr ∈ S.foreign, ∀ p ∈ S.accounts, derivedAddress p ≠ addr := by
    rintro addr ha p hp rfl
    exact S.foreign_not_derived p hp ha
  have hall := sound_invariant (Q := fun w h => OnlyEntitiesIn S chainId h →
      Readable S w ∧ ∀ x ∈ h, Readable S x.pre)
    (fun _ => ⟨fun _ _ _ => ⟨Bitmap.new, rfl⟩, by simp⟩) (fun h x hmade _ hQ honly => ?_)
    (fun w h addr acc _ _ hQ ha honly => (hQ honly).imp_left fun hw =>
      hw.congr fun p hp => World.code_setAccount_of_ne (hne addr ha p hp))
    (fun w h f hQ honly => hQ honly)
    (fun w h _ hQ honly => (hQ honly).imp_left fun hw => hw.congr fun p _ => w.code_prune _)
    hrun hsound
  · exact (hall.2 honly).2
  · obtain ⟨hw, hh⟩ := hQ fun y hy => honly y (List.mem_append_left _ hy)
    refine ⟨hw.step hmade (honly x (by simp)), fun y hy => ?_⟩
    rcases List.mem_append.mp hy with hy | hy
    · exact hh y hy
    · rw [List.mem_singleton.mp hy]
      exact hw

theorem KeepsOthers.of_mint (hmade : Made S chainId h x) (hN : Numbered S chainId x.pre h)
    {e : EntityRlp} {m : B256} {event : EntityOperation} (hx : x.IsCreate)
    (hm : .payloadReferenceNonce x.label.ctx.caller m ∈ S.slots)
    (hc : MintChange S chainId x.pre x.post x.label.ctx e)
    (heffect : Effect x.pre x.post x.target e.encodeAsCode (entityCount x.pre) [] e.annotations
      (createdSlots x.pre x.label.ctx m) event) : KeepsOthers S chainId x := by
  have htarget := hc.target hx
  have hid : x.entityId = entityCount x.pre := by rw [OpTransition.entityId, if_pos hx]
  have hfresh : ∀ a f, Live S chainId x.pre a f → readEntityId x.pre a ≠ entityCount x.pre := by
    intro a f hf heq
    have hlt := hN.id_lt a f hf
    rw [heq, hN.count] at hlt
    exact lt_irrefl _ hlt
  have hslots : ∀ p ∈ createdSlots x.pre x.label.ctx m, p.1 ∈ S.slots := by
    simp only [createdSlots, List.forall_mem_cons]
    have haddr := hc.addr_mem
    rw [hc.key] at haddr
    exact ⟨hm, hc.nonces_mem, S.count_mem, hc.id_mem, haddr, by simp⟩
  refine ⟨fun a f hf _ => ?_, fun a f hf hne => ?_, fun a f hf _ => hc.addr_slot hmade.registered hf,
    fun a f hf _ => ?_, fun o ho hn => ?_, fun o k ho hn => ?_, ?_⟩
  · rw [hid]
    exact hfresh a f hf
  · rw [hc.code a hf.1, if_neg (htarget ▸ hne)]
  · rw [hc.ids _ (hmade.registered.recorded a f hf).id_mem, if_neg (hfresh a f hf)]
  · rw [hc.nonces o hn, if_neg ho]
  · refine heffect.slot_of_notMem hslots hn ?_
    simp only [createdSlots, List.forall_mem_cons]
    refine ⟨fun heq => ho ?_, by simp, by simp, by simp, by simp, by simp⟩
    exact (SlotName.payloadReferenceNonce.inj heq).1.symm
  · rw [if_pos hx, entityCount, hc.count, storageToU64_u64ToStorage]

theorem KeepsOthers.of_rewrite (hmade : Made S chainId h x) (hN : Numbered S chainId x.pre h)
    {e e' : EntityRlp} {rem ins : List Annotation} {slots : List (SlotName × B256)} {code : Bytes}
    {event : EntityOperation} (hx : ¬x.IsCreate)
    (hc : RewriteChange S chainId x.pre x.post x.target e e')
    (hslots : ∀ p ∈ slots, p.1 ∈ S.slots ∧ ∃ m, p.1 = .payloadReferenceNonce x.label.ctx.caller m)
    (heffect : Effect x.pre x.post x.target code (readEntityId x.pre x.target) rem ins slots event) :
    KeepsOthers S chainId x := by
  refine ⟨fun a f hf hne => ?_, fun a f hf hne => ?_,
    fun a f hf _ => hc.addr_slot (hmade.registered.recorded a f hf).addr_mem,
    fun a f hf _ => hc.id_slot (hmade.registered.recorded a f hf).id_mem,
    fun o _ hn => hc.slot _ hn (by simp), fun o k ho hn => ?_, ?_⟩
  · rw [OpTransition.entityId, if_neg hx]
    exact fun heq => hne (hN.distinct hf hc.live heq)
  · rw [hc.code a hf.1, if_neg hne]
  · refine heffect.slot_of_notMem (fun p hp => (hslots p hp).1) hn fun p hp heq => ?_
    obtain ⟨-, m, hm⟩ := hslots p hp
    exact ho (SlotName.payloadReferenceNonce.inj (hm.symm.trans heq)).1.symm
  · rw [if_neg hx]
    exact entityCount_congr (hc.slot _ S.count_mem (by simp))

theorem KeepsOthers.of_remove (hmade : Made S chainId h x) (hN : Numbered S chainId x.pre h)
    {e : EntityRlp} (hx : ¬x.IsCreate) (hc : RemoveChange S chainId x.pre x.post x.target e) :
    KeepsOthers S chainId x := by
  have hother : ∀ a f, Live S chainId x.pre a f → a ≠ x.target →
      readEntityId x.pre a ≠ readEntityId x.pre x.target :=
    fun a f hf hne heq => hne (hN.distinct hf hc.live heq)
  refine ⟨fun a f hf hne => ?_, fun a f hf hne => ?_,
    fun a f hf hne => hc.addr_slot (hmade.registered.recorded a f hf).addr_mem hne,
    fun a f hf hne => hc.id_slot (hmade.registered.recorded a f hf).id_mem (hother a f hf hne),
    fun o _ hn => ?_, fun o k _ hn => ?_, ?_⟩
  · rw [OpTransition.entityId, if_neg hx]
    exact hother a f hf hne
  · rw [hc.code a hf.1, if_neg hne]
  · exact (hc.slot _ hn).trans (if_neg (by simp))
  · exact (hc.slot _ hn).trans (if_neg (by simp))
  · rw [if_neg hx]
    exact entityCount_congr ((hc.slot _ S.count_mem).trans (if_neg (by simp)))

/-- **Step**: an accepted operation on a numbered state with readable bitmaps has the frame. -/
theorem Made.isolated (hmade : Made S chainId h x) (hN : Numbered S chainId x.pre h)
    (honly : OnlyEntities S chainId x.pre) (hw : Readable S x.pre) : Isolated S chainId x := by
  have hothers : KeepsOthers S chainId x := by
    cases hmade.edited honly with
    | mint e m hx hm hc heffect => exact .of_mint hmade hN hx hm hc heffect
    | rewrite e e' rem ins slots hx htype hc hdiff hrepost hslots heffect =>
      exact .of_rewrite hmade hN hx hc hslots heffect
    | remove e hx hc heffect => exact .of_remove hmade hN hx.not_isCreate hc
  have hbitmaps : ∀ k v, S.Covers k v →
      AgreeOff x.entityId (readPairBitmap x.pre k v) (readPairBitmap x.post k v) := by
    intro k v hkv
    obtain ⟨b, hb⟩ := hw k v hkv
    exact hmade.agreeOff honly hkv hb
  exact ⟨hothers, hbitmaps, fun key v hkv => hbitmaps _ v hkv,
    fun key vs hvs => agreeOff_unionOfPairs fun v hv => hbitmaps _ v (hvs v hv)⟩

/-- **Frame**: in every run in which only entities look like entities, every accepted operation
    with fewer than `2 ^ 64` creates before it leaves the other entities and callers alone. -/
theorem isolated_run {steps : List Chain.Step} (hrun : Chain.AllowedRun chainId S.foreign steps)
    (hsound : SoundHistory S (Chain.run steps).history)
    (honly : OnlyEntitiesIn S chainId (Chain.run steps).history) :
    Runs.AllSplits (fun h (x : OpTransition) => creates h < 2 ^ 64 → Isolated S chainId x)
      (Chain.run steps).history := by
  intro h₁ x h₂ heq hlt
  have hx : x ∈ (Chain.run steps).history := by simp [heq]
  have hmade := (registered_run hrun hsound).2 h₁ x h₂ heq
  have hN := (numbered_splits hrun hsound honly).2 h₁ x h₂ heq hlt
  exact hmade.isolated hN (honly x hx) (readable_run hrun hsound honly x hx)

end Runs

theorem isolated_tradeRun :
    Runs.AllSplits (fun h (x : OpTransition) => creates h < 2 ^ 64 →
      Isolated DevChain.tradeScope devChainId x) (Chain.run DevChain.tradeRun).history :=
  isolated_run DevChain.facts_tradeRun.allowed DevChain.facts_tradeRun.sound
    DevChain.facts_tradeRun.only

end Arkiv
