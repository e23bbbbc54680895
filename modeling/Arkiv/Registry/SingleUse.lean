import Mathlib
import Arkiv.DevChain.Check
import Arkiv.Registry.Pruning

/-!
# Payload references are used once

A reference nonce is consumed by the first create or update of a caller that
carries it. The slot of the pair says so for ever, and for this caller only.

## Main definitions

- `OpTransition.Uses`, `OpTransition.Presents` — the nonce and the signed receipt of an operation
- `SingleUse` — what the slots and the history say
- `singleUse_run` — it holds in every run
-/

namespace Arkiv

open ByteString

section Runs

variable [Host]

namespace OpTransition

/-- A create or an update, the operations that carry a payload reference. -/
def CarriesReference (x : OpTransition) : Prop :=
  x.label.op.operationType = opCreate ∨ x.label.op.operationType = opUpdate

instance (x : OpTransition) : Decidable x.CarriesReference :=
  inferInstanceAs (Decidable (_ ∨ _))

/-- The operation carries a reference with this nonce. -/
def Uses (x : OpTransition) (m : B256) : Prop :=
  x.CarriesReference ∧ ∃ auth, validatePayloadReference x.label.op.payload x.label.ctx.chainId =
    .ok auth ∧ auth.nonce = m

/-- The payload of the operation is a reference with this signed receipt. -/
def Presents (x : OpTransition) (r : PayloadReceiptJson) : Prop :=
  x.CarriesReference ∧ ∃ reference, ReceiptCrates.fromSlice x.label.op.payload = some reference ∧
    reference.signature.receipt = r

end OpTransition

/-- Nonces and receipts serve each caller once, and a caller is only held up by nonces of its
    own. -/
structure SingleUse (S : Scope) (w : World) (h : History) : Prop where
  used : ∀ x ∈ h, x.CarriesReference → ∃ m, x.Uses m
  once : h.Pairwise fun (y z : OpTransition) => y.label.ctx.caller = z.label.ctx.caller →
    ∀ m, ¬(y.Uses m ∧ z.Uses m)
  receipts : h.Pairwise fun (y z : OpTransition) => y.label.ctx.caller = z.label.ctx.caller →
    ∀ r, ¬(y.Presents r ∧ z.Presents r)
  consumed : ∀ o m, .payloadReferenceNonce o m ∈ S.slots →
    (payloadReferenceNonceUsed w o m = true ↔ ∃ x ∈ h, x.label.ctx.caller = o ∧ x.Uses m)

variable {S : Scope} {chainId : UInt64} {w w' : World} {h : History} {c : OpCall}

theorem uses_iff {auth : PayloadReferenceAuth} {m : B256}
    (hcarries : OpTransition.CarriesReference ⟨w, c, w'⟩)
    (hvalid : validatePayloadReference c.op.payload c.ctx.chainId = .ok auth) :
    OpTransition.Uses ⟨w, c, w'⟩ m ↔ auth.nonce = m := by
  constructor
  · rintro ⟨-, auth', hauth', hm⟩
    obtain rfl := Except.ok.inj (hvalid.symm.trans hauth')
    exact hm
  · intro hm
    exact ⟨hcarries, auth, hvalid, hm⟩

theorem not_uses_of {k : UInt8} (htype : c.op.operationType = k) (hcreate : k ≠ opCreate)
    (hupdate : k ≠ opUpdate) (m : B256) : ¬OpTransition.Uses ⟨w, c, w'⟩ m := by
  rintro ⟨hc | hu, -⟩
  · exact hcreate (htype.symm.trans hc)
  · exact hupdate (htype.symm.trans hu)

/-- What an operation does to one reference slot: it writes the slot of the nonce that it uses, and
    no other. -/
structure ReferenceWrite (x : OpTransition) (o : Address) (m : B256) : Prop where
  fresh : x.Uses m → o = x.label.ctx.caller → x.pre.slot (slotPayloadReferenceNonce o m) = 0 ∧
    x.post.slot (slotPayloadReferenceNonce o m) = 1
  kept : ¬(x.Uses m ∧ o = x.label.ctx.caller) →
    x.post.slot (slotPayloadReferenceNonce o m) = x.pre.slot (slotPayloadReferenceNonce o m)

theorem ReferenceWrite.of_accepted {o : Address} {m : B256} {auth : PayloadReferenceAuth}
    (hcarries : OpTransition.CarriesReference ⟨w, c, w'⟩)
    (hvalid : validatePayloadReference c.op.payload c.ctx.chainId = .ok auth)
    (hunused : payloadReferenceNonceUsed w c.ctx.caller auth.nonce = false)
    (hslot : w'.slot (slotPayloadReferenceNonce o m) =
      if SlotName.payloadReferenceNonce o m = .payloadReferenceNonce c.ctx.caller auth.nonce then 1
      else w.slot (slotPayloadReferenceNonce o m)) : ReferenceWrite ⟨w, c, w'⟩ o m := by
  constructor
  · intro huse howner
    obtain rfl := (uses_iff hcarries hvalid).mp huse
    subst howner
    rw [if_pos rfl] at hslot
    exact ⟨by simpa [payloadReferenceNonceUsed] using hunused, hslot⟩
  · intro hne
    rw [hslot, if_neg]
    intro heq
    injection heq with ho hnonce
    exact hne ⟨(uses_iff hcarries hvalid).mpr hnonce.symm, ho⟩

theorem ReferenceWrite.of_type {o : Address} {m : B256} {k : UInt8} (htype : c.op.operationType = k)
    (hcreate : k ≠ opCreate) (hupdate : k ≠ opUpdate)
    (hslot : w'.slot (slotPayloadReferenceNonce o m) = w.slot (slotPayloadReferenceNonce o m)) :
    ReferenceWrite ⟨w, c, w'⟩ o m :=
  ⟨fun huse => absurd huse (not_uses_of htype hcreate hupdate m), fun _ => hslot⟩

theorem Applied.referenceWrite (happ : Applied w c w') (hS : S.SlotsCovered w c) {o : Address}
    {m : B256} (hm : .payloadReferenceNonce o m ∈ S.slots) : ReferenceWrite ⟨w, c, w'⟩ o m := by
  have hremoved : ∀ {code : Bytes} {rem ins : List Annotation} {event : EntityOperation}
      {target : Address}, c.op.operationType ≠ opCreate →
      Effect w w' target code (readEntityId w (entityAddress c.op.entityKey)) rem ins
        [(.idToAddr (readEntityId w (entityAddress c.op.entityKey)), 0),
          (.addrToId (entityAddress c.op.entityKey), 0)] event →
      w'.slot (slotPayloadReferenceNonce o m) = w.slot (slotPayloadReferenceNonce o m) := by
    intro code rem ins event target hnc heffect
    obtain ⟨haddr, hid⟩ := hS.target hnc
    refine heffect.slot_of_notMem (fun p hp => ?_) hm fun p hp => ?_
    · simp only [List.mem_cons, List.not_mem_nil, or_false] at hp
      rcases hp with rfl | rfl
      · exact hid
      · exact haddr
    · simp only [List.mem_cons, List.not_mem_nil, or_false] at hp
      rcases hp with rfl | rfl <;> simp
  -- Only creates and updates write slots of references; removals clear the two of the ID maps.
  cases happ with
  | create attributes auth htype hbtl href hnonce heffect =>
    obtain ⟨hidm, haddrm⟩ := hS.mint htype
    refine .of_accepted (.inl htype) href.valid href.unused ?_
    refine (heffect.slot_by_name (fun p hp => ?_) _ hm).trans ?_
    · simp only [List.mem_cons, List.not_mem_nil, or_false] at hp
      rcases hp with rfl | rfl | rfl | rfl | rfl
      · exact hS.reference auth href.valid
      · exact hS.nonces
      · exact S.count_mem
      · exact hidm
      · exact haddrm
    · simp only [List.foldl_cons, List.foldl_nil, Function.update_apply, reduceCtorEq, if_false]
      rfl
  | update e attributes auth htype href howned heffect =>
    refine .of_accepted (.inr htype) href.valid href.unused ?_
    refine (heffect.slot_by_name (fun p hp => ?_) _ hm).trans ?_
    · obtain rfl := List.mem_singleton.mp hp
      exact hS.reference auth href.valid
    · simp only [List.foldl_cons, List.foldl_nil, Function.update_apply]
      rfl
  | extend e htype hbtl howned hlater heffect =>
    exact .of_type htype (by decide) (by decide)
      (heffect.slot_of_notMem (by simp) hm (by simp))
  | transfer e htype howned hzero hself heffect =>
    exact .of_type htype (by decide) (by decide)
      (heffect.slot_of_notMem (by simp) hm (by simp))
  | delete e htype howned heffect =>
    exact .of_type htype (by decide) (by decide) (hremoved (by rw [htype]; decide) heffect)
  | expire e htype hload hexpired heffect =>
    exact .of_type htype (by decide) (by decide) (hremoved (by rw [htype]; decide) heffect)

/-- An accepted create or update uses a nonce. -/
theorem Applied.used (happ : Applied w c w')
    (hcarries : OpTransition.CarriesReference ⟨w, c, w'⟩) : ∃ m, OpTransition.Uses ⟨w, c, w'⟩ m := by
  have hno : ∀ {k : UInt8}, c.op.operationType = k → k ≠ opCreate → k ≠ opUpdate →
      ∃ m, OpTransition.Uses ⟨w, c, w'⟩ m := fun htype hcreate hupdate => by
    rcases hcarries with hc | hu
    · exact absurd (htype.symm.trans hc) hcreate
    · exact absurd (htype.symm.trans hu) hupdate
  cases happ with
  | create attributes auth htype hbtl href hnonce heffect =>
    exact ⟨auth.nonce, hcarries, auth, href.valid, rfl⟩
  | update e attributes auth htype href howned heffect =>
    exact ⟨auth.nonce, hcarries, auth, href.valid, rfl⟩
  | extend e htype => exact hno htype (by decide) (by decide)
  | transfer e htype => exact hno htype (by decide) (by decide)
  | delete e htype => exact hno htype (by decide) (by decide)
  | expire e htype => exact hno htype (by decide) (by decide)

/-- The part of `SingleUse` that is kept step by step. -/
structure NoncesConsumed (S : Scope) (chainId : UInt64) (w : World) (h : History) : Prop where
  chain : ∀ x ∈ h, x.label.ctx.chainId = chainId
  used : ∀ x ∈ h, x.CarriesReference → ∃ m, x.Uses m
  once : h.Pairwise fun (y z : OpTransition) => y.label.ctx.caller = z.label.ctx.caller →
    ∀ m, ¬(y.Uses m ∧ z.Uses m)
  consumed : ∀ o m, .payloadReferenceNonce o m ∈ S.slots →
    (w.slot (slotPayloadReferenceNonce o m) ≠ 0 ↔ ∃ x ∈ h, x.label.ctx.caller = o ∧ x.Uses m)

theorem NoncesConsumed.congr (hN : NoncesConsumed S chainId w h)
    (hslot : ∀ s, w'.slot s = w.slot s) : NoncesConsumed S chainId w' h := by
  refine ⟨hN.chain, hN.used, hN.once, fun o m hm => ?_⟩
  rw [hslot]
  exact hN.consumed o m hm

/-- **Step**: an accepted operation finds its nonce unused and consumes it. -/
theorem NoncesConsumed.step (hN : NoncesConsumed S chainId w h) (hchain : c.ctx.chainId = chainId)
    (hS : S.SlotsCovered w c) (happ : Applied w c w') :
    NoncesConsumed S chainId w' (h ++ [⟨w, c, w'⟩]) := by
  have hmem : ∀ {m : B256}, OpTransition.Uses ⟨w, c, w'⟩ m →
      .payloadReferenceNonce c.ctx.caller m ∈ S.slots := by
    rintro m ⟨-, auth, hauth, rfl⟩
    exact hS.reference auth hauth
  refine ⟨fun x hx => ?_, fun x hx hcarries => ?_, ?_, fun o m hm => ?_⟩
  · rcases List.mem_append.mp hx with hx | hx
    · exact hN.chain x hx
    · rw [List.mem_singleton.mp hx]
      exact hchain
  · rcases List.mem_append.mp hx with hx | hx
    · exact hN.used x hx hcarries
    · obtain rfl := List.mem_singleton.mp hx
      exact happ.used hcarries
  -- A nonce that an earlier operation has used is no longer fresh for this one.
  · refine List.pairwise_append.mpr ⟨hN.once, List.pairwise_singleton _ _, ?_⟩
    rintro y hy z hz hcaller m ⟨huse, huse'⟩
    obtain rfl := List.mem_singleton.mp hz
    have hfresh := ((happ.referenceWrite hS (hmem huse')).fresh huse' rfl).1
    exact (hN.consumed _ m (hmem huse')).mpr ⟨y, hy, hcaller, huse⟩ hfresh
  · have hwrite := happ.referenceWrite hS hm
    by_cases huse : OpTransition.Uses ⟨w, c, w'⟩ m ∧ o = c.ctx.caller
    · have hone := (hwrite.fresh huse.1 huse.2).2
      refine iff_of_true ?_ ⟨_, List.mem_append_right _ (by simp), huse.2.symm, huse.1⟩
      rw [hone]
      decide
    · rw [hwrite.kept huse, hN.consumed o m hm]
      constructor
      · rintro ⟨y, hy, hyo⟩
        exact ⟨y, List.mem_append_left _ hy, hyo⟩
      · rintro ⟨y, hy, hyo, hym⟩
        rcases List.mem_append.mp hy with hy | hy
        · exact ⟨y, hy, hyo, hym⟩
        · obtain rfl := List.mem_singleton.mp hy
          exact absurd ⟨hym, hyo.symm⟩ huse

/-- Two operations with one receipt use one nonce. -/
theorem receipts_of_once {y z : OpTransition} (hchain : y.label.ctx.chainId = z.label.ctx.chainId)
    (hused : ∀ x ∈ [y, z], x.CarriesReference → ∃ m, x.Uses m) {r : PayloadReceiptJson}
    (hy : y.Presents r) (hz : z.Presents r) : ∃ m, y.Uses m ∧ z.Uses m := by
  obtain ⟨hyc, j, hj, rfl⟩ := hy
  obtain ⟨hzc, j', hj', hr⟩ := hz
  obtain ⟨m, huse⟩ := hused y (by simp) hyc
  obtain ⟨m', huse'⟩ := hused z (by simp) hzc
  refine ⟨m, huse, ?_⟩
  obtain ⟨-, auth, hauth, rfl⟩ := id huse
  obtain ⟨-, auth', hauth', rfl⟩ := id huse'
  rw [hchain] at hauth
  rwa [nonce_eq_of_receipt_eq hauth hauth' hj hj' hr.symm]

theorem NoncesConsumed.singleUse (hN : NoncesConsumed S chainId w h) : SingleUse S w h where
  used := hN.used
  once := hN.once
  receipts := by
    refine hN.once.imp_of_mem fun {y z} hy hz honce hcaller r hboth => ?_
    obtain ⟨m, huse⟩ := receipts_of_once ((hN.chain y hy).trans (hN.chain z hz).symm)
      (by simpa using ⟨hN.used y hy, hN.used z hz⟩) hboth.1 hboth.2
    exact honce hcaller m huse
  consumed o m hm := by
    rw [← hN.consumed o m hm, payloadReferenceNonceUsed, bne_iff_ne]

theorem noncesConsumed_run {steps : List Chain.Step}
    (hrun : Chain.AllowedRun chainId S.foreign steps)
    (hslots : ∀ x ∈ (Chain.run steps).history, S.SlotsCovered x.pre x.label) :
    NoncesConsumed S chainId (Chain.run steps).world (Chain.run steps).history := by
  -- Pruning clears the slots of accounts without a nonce, so slots stay only while their account
  -- hosts them: the run keeps both facts together.
  have hall := Chain.invariant (Q := fun w h => (∀ x ∈ h, S.SlotsCovered x.pre x.label) →
      w.Hosts ∧ NoncesConsumed S chainId w h) ?_ ?_ ?_ ?_ ?_ hrun
  · exact (hall hslots).2
  · exact fun _ => ⟨fun _ _ => rfl, by simp, by simp, .nil, fun _ _ _ =>
      iff_of_false (not_not.mpr rfl) (by simp)⟩
  · intro w h c w' hQ hchain hstep hs
    obtain ⟨hhosts, hN⟩ := hQ fun y hy => hs y (List.mem_append_left _ hy)
    have hS : S.SlotsCovered w c := hs ⟨w, c, w'⟩ (by simp)
    exact ⟨(opStep_keeps hstep).hosts hhosts, hN.step hchain hS (applied_of_opStep hS hstep)⟩
  · intro w h addr acc hQ ha hs
    obtain ⟨hhosts, hN⟩ := hQ hs
    have hslot : ∀ s, (w.setAccount addr acc).slot s = w.slot s := World.slot_foreign ha
    refine ⟨fun h0 s => ?_, hN.congr hslot⟩
    rw [World.nonce, World.accounts_foreign ha] at h0
    rw [hslot]
    exact hhosts h0 s
  · intro w h f hQ hs
    obtain ⟨hhosts, hN⟩ := hQ hs
    exact ⟨hhosts, hN.congr fun _ => rfl⟩
  · intro w h hQ hs
    obtain ⟨hhosts, hN⟩ := hQ hs
    have hslot := World.slot_prune hhosts
    refine ⟨fun h0 s => ?_, hN.congr hslot⟩
    rw [World.nonce_prune] at h0
    rw [hslot]
    exact hhosts h0 s

/-- **Replay safety**: in every run without slot collisions each caller's creates and updates use
    pairwise different nonces and receipts, and a nonce is refused exactly when the caller itself
    has used it. -/
theorem singleUse_run {steps : List Chain.Step} (hrun : Chain.AllowedRun chainId S.foreign steps)
    (hslots : ∀ x ∈ (Chain.run steps).history, S.SlotsCovered x.pre x.label) :
    SingleUse S (Chain.run steps).world (Chain.run steps).history :=
  (noncesConsumed_run hrun hslots).singleUse

end Runs

theorem singleUse_tradeRun : SingleUse DevChain.tradeScope (Chain.run DevChain.tradeRun).world
    (Chain.run DevChain.tradeRun).history :=
  singleUse_run DevChain.facts_tradeRun.allowed fun x hx =>
    (DevChain.facts_tradeRun.sound x hx).slots

end Arkiv
