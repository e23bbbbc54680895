import Mathlib
import Arkiv.Registry.IndexCoherence
import Arkiv.Registry.Machine

/-!
# What the code accepts

The index accounts of a run can always be read and written, so nothing below the
checks of an operation fails. The code accepts exactly the operations that are
steps of the machine and whose payment goes through.

## Main definitions

- `Usable` — the pair and index accounts of the scope can be read and written
- `OpCall.Payable` — the payment of an operation goes through
- `usable_run` — the accounts are usable after every run
- `accepted_iff_run` — what is accepted after a run
-/

namespace Arkiv

open ByteString

section Usable

variable [Keccak] [RoaringFormat] {S : Scope} {u w w' : World} {i : UInt64} {a : Annotation}
  {as rem ins : List Annotation}

/-- The accounts hold some index, whatever it is of. -/
def Usable (S : Scope) (w : World) : Prop :=
  ∃ x, PairsHold S Set.univ w x ∧ TreesHold S Set.univ w x

omit [Keccak] [RoaringFormat] in
theorem onTree_of_onCode {code code' : Bytes} {op : SetOp} {answer : Bool} {t : IndexTree}
    (h : op.onCode code = some (code', answer)) (hread : IndexTree.ofCode code = .ok t) :
    ∃ t', op.onTree t = some (t', answer) ∧ op.written t' = some code' := by
  rw [SetOp.onCode, hread] at h
  change (op.onTree t).bind _ = _ at h
  obtain ⟨⟨t', answer'⟩, hop, h⟩ := Option.bind_eq_some_iff.mp h
  obtain ⟨bytes, hbytes, heq⟩ := Option.map_eq_some_iff.mp h
  obtain ⟨rfl, rfl⟩ := Prod.mk.inj heq
  exact ⟨t', hop, hbytes⟩

/-- A posting goes in. -/
theorem Usable.exists_insert (h : Usable S w) (i : UInt64) (ha : S.Covers a.key a.value)
    (hlen : a.value.length ≤ 255)
    (hslots : ∀ c ∈ insertTreeCall w a, c.op.KeepsSlots c.tree) :
    ∃ w', insertIntoIndexes w a.key a.value i a.tier2 = .ok w' ∧ Usable S w' := by
  obtain ⟨x, hP, hT⟩ := h
  have hsome : ∃ w', insertIntoIndexes w a.key a.value i a.tier2 = .ok w' := by
    obtain ⟨b, hb, -⟩ := hP a.key trivial a.value ha
    obtain ⟨s, hs, -⟩ := hT a.key trivial ha.index
    obtain ⟨-, t, hread, -⟩ := hs.exists_tree
    have htree := readIndexTree_of_ofCode hread
    simp only [insertIntoIndexes]
    by_cases ht : (a.tier2 && b.isEmpty) = true
    · have hkeeps : (SetOp.insert a.value).KeepsSlots t := by
        refine hslots ⟨a.key, t, .insert a.value⟩ ?_
        simp only [insertTreeCall, hb, htree, ht, if_true, List.mem_singleton]
      obtain ⟨code, hcode, -⟩ :=
        hs.call (fun key hkey => by rw [← SetOp.insert.inj hkey]; exact hlen) fun t' ht' => by
          rw [← Except.ok.inj (hread.symm.trans ht')]
          exact hkeeps
      obtain ⟨t', hcall, hwritten⟩ := onTree_of_onCode hcode hread
      have hne : indexAddress a.key ≠ pairAddress a.key a.value :=
        (Scope.pairAddress_ne_of_mem ha.pair ha.index).symm
      rw [← readIndexTree_congr (World.code_setCode_of_ne w _ _ (b.insert i).toBytes hne)] at htree
      refine ⟨(w.setCode (pairAddress a.key a.value) (b.insert i).toBytes).setCode
        (indexAddress a.key) code, Runs.ok_bind.mpr ⟨b, hb, ?_⟩⟩
      rw [if_pos ht]
      exact Runs.ok_bind.mpr ⟨t, htree, Runs.ok_bind.mpr ⟨_, orPanic_ok.mpr hcall,
        Runs.ok_bind.mpr ⟨code, orPanic_ok.mpr hwritten, rfl⟩⟩⟩
    · refine ⟨w.setCode (pairAddress a.key a.value) (b.insert i).toBytes,
        Runs.ok_bind.mpr ⟨b, hb, ?_⟩⟩
      rw [if_neg ht]
      rfl
  obtain ⟨w', hw'⟩ := hsome
  exact ⟨w', hw', _, hP.insert ha hw', hT.insert hP ha hlen hw' fun c hc _ => hslots c hc⟩

/-- A posting goes out. -/
theorem Usable.exists_remove (h : Usable S w) (i : UInt64) (ha : S.Covers a.key a.value)
    (hslots : ∀ c ∈ removeTreeCall w i a, c.op.KeepsSlots c.tree) :
    ∃ w', removeFromIndexes w a.key a.value i a.tier2 = .ok w' ∧ Usable S w' := by
  obtain ⟨x, hP, hT⟩ := h
  have hsome : ∃ w', removeFromIndexes w a.key a.value i a.tier2 = .ok w' := by
    obtain ⟨b, hb, -⟩ := hP a.key trivial a.value ha
    obtain ⟨s, hs, -⟩ := hT a.key trivial ha.index
    obtain ⟨-, t, hread, -⟩ := hs.exists_tree
    have htree := readIndexTree_of_ofCode hread
    simp only [removeFromIndexes]
    by_cases he : b.isEmpty = true
    · refine ⟨w, Runs.ok_bind.mpr ⟨b, hb, ?_⟩⟩
      rw [if_pos he]
      rfl
    by_cases ht : (a.tier2 && (b.remove i).isEmpty) = true
    · have hkeeps : (SetOp.remove a.value).KeepsSlots t := by
        refine hslots ⟨a.key, t, .remove a.value⟩ ?_
        simp only [removeTreeCall, hb, htree, he, ht, Bool.not_false, Bool.true_and, if_true,
          List.mem_singleton]
      obtain ⟨code, hcode, -⟩ :=
        hs.call (fun key hkey => SetOp.noConfusion hkey) fun t' ht' => by
          rw [← Except.ok.inj (hread.symm.trans ht')]
          exact hkeeps
      obtain ⟨t', hcall, hwritten⟩ := onTree_of_onCode hcode hread
      have hne : indexAddress a.key ≠ pairAddress a.key a.value :=
        (Scope.pairAddress_ne_of_mem ha.pair ha.index).symm
      rw [← readIndexTree_congr (World.code_setCode_of_ne w _ _ (b.remove i).toBytes hne)] at htree
      have hlast : ∀ v : World, ∃ v', (if t'.isEmpty = true then
            return v.tombstoneCode (indexAddress a.key)
          else do
            let bytes ← orPanic t'.toBytes
            return v.setCode (indexAddress a.key) bytes : Except DbError World) = .ok v' := by
        intro v
        rw [SetOp.written] at hwritten
        by_cases hempty : t'.isEmpty = true
        · rw [if_pos hempty]
          exact ⟨_, rfl⟩
        · rw [if_neg hempty] at hwritten ⊢
          exact ⟨_, Runs.ok_bind.mpr ⟨code, orPanic_ok.mpr hwritten, rfl⟩⟩
      obtain ⟨v', hv'⟩ := hlast (w.setCode (pairAddress a.key a.value) (b.remove i).toBytes)
      refine ⟨v', Runs.ok_bind.mpr ⟨b, hb, ?_⟩⟩
      rw [if_neg he, if_pos ht]
      exact Runs.ok_bind.mpr ⟨t, htree, Runs.ok_bind.mpr ⟨_, orPanic_ok.mpr hcall, hv'⟩⟩
    · refine ⟨w.setCode (pairAddress a.key a.value) (b.remove i).toBytes,
        Runs.ok_bind.mpr ⟨b, hb, ?_⟩⟩
      rw [if_neg he, if_neg ht]
      rfl
  obtain ⟨w', hw'⟩ := hsome
  exact ⟨w', hw', _, hP.remove ha hw', hT.remove hP ha hw' fun c hc _ => hslots c hc⟩

theorem Usable.exists_insertAll (h : Usable S w) (i : UInt64) (has : S.CoversAll as)
    (hlen : ∀ a ∈ as, a.value.length ≤ 255)
    (hslots : ∀ c ∈ insertTreeCalls i w as, c.op.KeepsSlots c.tree) :
    ∃ w', insertAnnotations w i as = .ok w' := by
  induction as generalizing w with
  | nil => exact ⟨w, rfl⟩
  | cons a as ih =>
    obtain ⟨ha, has⟩ := List.forall_mem_cons.mp has
    obtain ⟨hlena, hlen⟩ := List.forall_mem_cons.mp hlen
    obtain ⟨u, hfirst, hu⟩ := h.exists_insert i ha hlena fun c hc =>
      hslots c (List.mem_append_left _ hc)
    simp only [insertTreeCalls, hfirst, List.mem_append, or_imp, forall_and] at hslots
    obtain ⟨w', hrest⟩ := ih hu has hlen hslots.2
    exact ⟨w', Runs.foldlM_cons_ok.mpr ⟨u, hfirst, hrest⟩⟩

theorem Usable.exists_removeAll (h : Usable S w) (i : UInt64) (has : S.CoversAll as)
    (hslots : ∀ c ∈ removeTreeCalls i w as, c.op.KeepsSlots c.tree) :
    ∃ w', removeAnnotations w i as = .ok w' ∧ Usable S w' := by
  induction as generalizing w with
  | nil => exact ⟨w, rfl, h⟩
  | cons a as ih =>
    obtain ⟨ha, has⟩ := List.forall_mem_cons.mp has
    obtain ⟨u, hfirst, hu⟩ := h.exists_remove i ha fun c hc =>
      hslots c (List.mem_append_left _ hc)
    simp only [removeTreeCalls, hfirst, List.mem_append, or_imp, forall_and] at hslots
    obtain ⟨w', hrest, hw'⟩ := ih hu has hslots.2
    exact ⟨w', Runs.foldlM_cons_ok.mpr ⟨u, hfirst, hrest⟩, hw'⟩

/-- **Edits go through** in usable accounts, as long as their calls keep the slots of the trees. -/
theorem Usable.exists_edits (h : Usable S w) (i : UInt64) (hrem : S.CoversAll rem)
    (hins : S.CoversAll ins) (hlen : ∀ a ∈ ins, a.value.length ≤ 255)
    (hslots : ∀ c ∈ editTreeCalls w i rem ins, c.op.KeepsSlots c.tree) :
    ∃ w', Edits w w' i rem ins := by
  obtain ⟨m, hm, hmid⟩ := h.exists_removeAll i hrem fun c hc =>
    hslots c (List.mem_append_left _ hc)
  simp only [editTreeCalls, hm, List.mem_append, or_imp, forall_and] at hslots
  obtain ⟨w', hw'⟩ := hmid.exists_insertAll i hins hlen hslots.2
  exact ⟨w', m, hm, hw'⟩

/-- Edits make the accounts of others. -/
theorem SameCode.insertAnnotations (h : SameCode u w) {u' : World}
    (hu : insertAnnotations u i as = .ok u') :
    ∃ w', insertAnnotations w i as = .ok w' ∧ SameCode u' w' := by
  induction as generalizing u w with
  | nil =>
    obtain rfl := Except.ok.inj hu
    exact ⟨w, rfl, h⟩
  | cons a as ih =>
    obtain ⟨u₁, hfirst, hrest⟩ := Runs.foldlM_cons_ok.mp hu
    obtain ⟨w₁, hfirst', hsame⟩ := h.insertIntoIndexes hfirst
    obtain ⟨w', hw', hsame'⟩ := ih hsame hrest
    exact ⟨w', Runs.foldlM_cons_ok.mpr ⟨w₁, hfirst', hw'⟩, hsame'⟩

theorem SameCode.edits (h : SameCode u w) {u' : World} (hu : Edits u u' i rem ins) :
    ∃ w', Edits w w' i rem ins := by
  obtain ⟨m, hrem, hins⟩ := hu
  obtain ⟨-, m', hrem', hsame⟩ := h.removeTreeCalls hrem
  obtain ⟨w', hins', -⟩ := hsame.insertAnnotations hins
  exact ⟨w', m', hrem', hins'⟩

end Usable

section Ready

variable [Host] {S : Scope} {chainId : UInt64} {w w' : World} {c : OpCall} {R R' : Registry}
  {h : History} {e e' : EntityRlp} {rem ins : List Annotation} {attributes : List Attribute}
  {auth : PayloadReferenceAuth}

/-- The payment of a create or an update goes through when its reference is consumed. -/
def OpCall.Payable (w : World) (c : OpCall) : Prop :=
  c.Pays → ∀ auth, validatePayloadReference c.op.payload c.ctx.chainId = .ok auth →
    ∃ w', applyPayloadProviderPayment c.ctx
      (consumePayloadReferenceNonce w c.ctx.caller auth.nonce) auth = .ok w'

theorem payable_of_opStep (h : opStep w c = .ok w') : c.Payable w := by
  intro hpays auth hvalid
  obtain ⟨w₁, auth', w₂, href, hpay⟩ := reference_of_opStep h hpays
  obtain ⟨hvalid', -, rfl⟩ := validateRequiredPayloadReference_ok href
  obtain rfl := Except.ok.inj (hvalid.symm.trans hvalid')
  exact ⟨w₂, hpay⟩

/-- An operation in a state that stands for a registry and whose accounts are usable. -/
structure Ready (S : Scope) (chainId : UInt64) (w : World) (h : History) (R : Registry)
    (c : OpCall) : Prop where
  registered : Registered S chainId w h
  abstracts : Abstracts S chainId w R
  usable : Usable S w
  only : OnlyEntities S chainId w
  slots : S.SlotsCovered w c
  accounts : S.AccountsCovered w c
  keeps : ∀ call ∈ c.treeCalls w, call.op.KeepsSlots call.tree

/-- The edits of the operation go through, also once slots and balances have changed. -/
theorem Ready.exists_edits (hr : Ready S chainId w h R c) {i : UInt64}
    (hedits : c.edits w = some (i, rem, ins)) (hrem : S.CoversAll rem) (hins : S.CoversAll ins)
    (hlen : ∀ a ∈ ins, a.value.length ≤ 255) {u : World} (hcode : SameCode w u) :
    ∃ v, Edits u v i rem ins := by
  have hcalls : c.treeCalls w = editTreeCalls w i rem ins := by
    rw [OpCall.treeCalls, hedits]
  obtain ⟨w', hw'⟩ := hr.usable.exists_edits i hrem hins hlen (hcalls ▸ hr.keeps)
  exact hcode.edits hw'

/-- Edits from one record to another go through. -/
theorem Ready.exists_rewrite (hr : Ready S chainId w h R c) {k : UInt8}
    (htype : c.op.operationType = k) (hk : k ≠ opCreate)
    (hlive : Live S chainId w (entityAddress c.op.entityKey) e) (hwf : e'.WellFormed)
    (hposts : ∀ a ∈ e'.annotations, a ∈ e.annotations ∨ Posts w c a)
    (hedits : c.editsOf e = some (rem, ins)) (hdiff : RecordDiff e e' rem ins) {u : World}
    (hcode : SameCode w u) :
    ∃ v, Edits u v (readEntityId w (entityAddress c.op.entityKey)) rem ins := by
  have hnc : c.op.operationType ≠ opCreate := htype ▸ hk
  have hnew := (hr.accounts.hasAccounts hnc hlive.2 hposts).coversAll fun a ha =>
    hwf.zero_notMem ha
  have hold := (hr.registered.recorded _ e hlive).covers
  exact hr.exists_edits (OpCall.edits_of_load hnc hlive.2 hedits)
    (fun a ha => hold a (hdiff.rem_old a ha)) (fun a ha => hnew a (hdiff.ins_new a ha))
    (fun a ha => hwf.value_length (hdiff.ins_new a ha)) hcode

/-- The removals of a deletion go through. -/
theorem Ready.exists_removal (hr : Ready S chainId w h R c)
    (htype : c.op.operationType = opDelete ∨ c.op.operationType = opExpire)
    (hlive : Live S chainId w (entityAddress c.op.entityKey) e) :
    ∃ v, Edits w v (readEntityId w (entityAddress c.op.entityKey))
      (deletedAnnotations e c.op.entityKey) [] := by
  have hnc : c.op.operationType ≠ opCreate := by
    rcases htype with htype | htype <;> rw [htype] <;> decide
  have hrec := hr.registered.recorded _ e hlive
  have hall : S.HasAccounts (deletedAnnotations e c.op.entityKey) := by
    refine hr.accounts.hasAccounts hnc hlive.2 fun a ha => (mem_deletedAnnotations ha).imp_right ?_
    rintro rfl
    exact .remove htype
  refine hr.exists_edits (OpCall.edits_of_load hnc hlive.2 (OpCall.editsOf_remove htype))
    (hall.coversAll fun a ha => ?_) (by simp [Scope.CoversAll]) (by simp) fun _ => rfl
  rcases mem_deletedAnnotations ha with hold | rfl
  · exact hrec.wellFormed.zero_notMem hold
  · exact (hrec.covers _ (key_mem_annotations e)).key

theorem Ready.live (hr : Ready S chainId w h R c) {a : Address} {i : ℕ}
    (hentry : R.entries a = some (i, e)) : Live S chainId w a e :=
  ((hr.abstracts.entries a i e).mp hentry).1

theorem Ready.ownedBy (hr : Ready S chainId w h R c) {i : ℕ}
    (howned : R.owned c (entityAddress c.op.entityKey) = some (i, e)) : OwnedBy w c e := by
  obtain ⟨hentry, howner, halive⟩ := Registry.owned_some howned
  exact ⟨(hr.live hentry).2, howner, halive⟩

omit [Host] in
theorem loadEntityForOwner_of_ownedBy (h : OwnedBy w c e) :
    loadEntityForOwner w c.ctx.caller c.ctx.currentBlock c.op.entityKey false =
      .ok ⟨e.owner, e.expiresAt⟩ := by
  have halive : ¬e.expiresAt ≤ c.ctx.currentBlock := UInt64.not_le.mpr h.alive
  unfold loadEntityForOwner
  refine Runs.ok_bind.mpr ⟨_, loadEntity_some.mpr ⟨e, h.load, rfl⟩, ?_⟩
  simp only [Bool.not_false, Bool.true_and, decide_eq_true_eq, if_neg halive, h.owner, ne_eq,
    not_true_eq_false, if_false]
  rfl

/-- The reference is consumed and paid for. -/
theorem exists_paid (href : ReferenceAccepted w c attributes auth)
    (hmime : mime128ToBytes c.op.contentType = payloadReferenceContentType) (hpays : c.Pays)
    (hpay : c.Payable w) :
    ∃ w₁ w₂, validateRequiredPayloadReference c.ctx w c.op.payload
        (mime128ToBytes c.op.contentType) = .ok (w₁, auth) ∧
      applyPayloadProviderPayment c.ctx w₁ auth = .ok w₂ := by
  obtain ⟨w₂, hpaid⟩ := hpay hpays auth href.valid
  refine ⟨_, w₂, ?_, hpaid⟩
  unfold validateRequiredPayloadReference
  exact Runs.ok_bind.mpr ⟨(), ensure_ok.mpr (beq_iff_eq.mpr hmime), Runs.ok_bind.mpr
    ⟨auth, href.valid, Runs.ok_bind.mpr ⟨(), ensure_ok.mpr (by rw [href.unused]; rfl), rfl⟩⟩⟩

/-- A create that the machine takes. -/
theorem Ready.exists_create (hr : Ready S chainId w h R c)
    (htype : c.op.operationType = opCreate) (hnext : R.nextCreate c = some R')
    (hpay : c.Payable w) : ∃ w', applyCreate c.ctx w c.op = .ok w' := by
  unfold Registry.nextCreate at hnext
  split at hnext
  · cases hnext
  next hroom =>
  rw [hr.abstracts.nonces _ hr.slots.nonces] at hroom
  obtain ⟨hbtl, hnonce⟩ := not_or.mp hroom
  obtain ⟨⟨attributes, auth⟩, haccepts, -⟩ := Option.map_eq_some_iff.mp hnext
  obtain ⟨href, hmime⟩ := (hr.abstracts.accepts_iff hr.slots).mp haccepts
  obtain ⟨w₁, w₂, hconsume, hpaid⟩ := exists_paid href hmime (.inl htype) hpay
  obtain ⟨hcode, hslot, -⟩ := reference_frame hconsume hpaid
  have hmem := hr.slots.reference auth href.valid
  have hn : readNonce w₂ c.ctx.caller = readNonce w c.ctx.caller := by
    have hne : slotNonces c.ctx.caller ≠ slotPayloadReferenceNonce c.ctx.caller auth.nonce :=
      fun heq => absurd (Scope.slot_inj hr.slots.nonces hmem heq) (by simp)
    rw [readNonce, hslot, Function.update_of_ne hne, readNonce]
  have hbump : bumpNonce w₂ c.ctx.caller = .ok ((w₂.ensureAccountPersists systemAccountAddress).setSlot
      (slotNonces c.ctx.caller) (u32ToStorage (readNonce w c.ctx.caller + 1)),
      readNonce w c.ctx.caller) := by
    simp only [bumpNonce, World.slot_ensureAccountPersists]
    rw [← readNonce, hn, if_pos (not_le.mp hnonce)]
  have hi : entityCount ((w₂.ensureAccountPersists systemAccountAddress).setSlot
      (slotNonces c.ctx.caller) (u32ToStorage (readNonce w c.ctx.caller + 1))) = entityCount w := by
    have hne : slotEntityCount ≠ slotPayloadReferenceNonce c.ctx.caller auth.nonce :=
      fun heq => absurd (Scope.slot_inj S.count_mem hmem heq) (by simp)
    have hne' : slotEntityCount ≠ slotNonces c.ctx.caller :=
      fun heq => absurd (Scope.slot_inj S.count_mem hr.slots.nonces heq) (by simp)
    rw [entityCount, World.slot_setSlot_of_ne _ _ _ _ hne', World.slot_ensureAccountPersists,
      hslot, Function.update_of_ne hne, entityCount]
  -- The postings of the new record go in.
  have hwf := wellFormed_createdRecord href
  have hall : S.HasAccounts (createdRecord w c attributes auth).annotations := fun a ha =>
    hr.accounts.posts a (.create htype href.convert href.valid ha)
  obtain ⟨v, m, hm, hins⟩ := hr.exists_edits (OpCall.edits_create htype href.convert href.valid)
    (by simp [Scope.CoversAll]) (hall.coversAll fun a ha => hwf.zero_notMem ha)
    (fun a ha => hwf.value_length ha)
    (u := ((((w₂.ensureAccountPersists systemAccountAddress).setSlot (slotNonces c.ctx.caller)
        (u32ToStorage (readNonce w c.ctx.caller + 1))).setSlot slotEntityCount
        (u64ToStorage (entityCount w + 1))).setSlot (slotIdToAddr (entityCount w))
        (addressToStorage (entityAddress (mintedKey w c.ctx)))).setSlot
        (slotAddrToId (entityAddress (mintedKey w c.ctx))) (u64ToStorage (entityCount w)))
    fun a => by simp [hcode a]
  obtain rfl := Except.ok.inj hm
  unfold applyCreate
  refine Runs.exists_ok_bind (a := ()) (ensure_ok.mpr (by simpa using hbtl)) ?_
  refine Runs.exists_ok_bind href.names (Runs.exists_ok_bind href.convert ?_)
  refine Runs.exists_ok_bind hconsume (Runs.exists_ok_bind hpaid ?_)
  rw [hbump]
  refine Runs.exists_ok_bind (a := v.setCode (entityAddress (mintedKey w c.ctx))
    (createdRecord w c attributes auth).encodeAsCode) (liftDb_ok.mpr ?_) ⟨_, rfl⟩
  unfold EntityDb.create
  refine Runs.ok_bind.mpr ⟨v, ?_, rfl⟩
  rw [← entityCount, hi]
  exact hins

/-- An update that the machine takes. -/
theorem Ready.exists_update (hr : Ready S chainId w h R c)
    (htype : c.op.operationType = opUpdate)
    (hnext : R.nextUpdate c (entityAddress c.op.entityKey) = some R') (hpay : c.Payable w) :
    ∃ w', applyUpdate c.ctx w c.op = .ok w' := by
  obtain ⟨⟨i, e⟩, howned, hnext⟩ := Option.bind_eq_some_iff.mp hnext
  obtain ⟨⟨attributes, auth⟩, haccepts, -⟩ := Option.map_eq_some_iff.mp hnext
  obtain ⟨href, hmime⟩ := (hr.abstracts.accepts_iff hr.slots).mp haccepts
  obtain ⟨w₁, w₂, hconsume, hpaid⟩ := exists_paid href hmime (.inr htype) hpay
  obtain ⟨hcode, hslot, -⟩ := reference_frame hconsume hpaid
  have hby := hr.ownedBy howned
  have hlive := hr.live (Registry.owned_some howned).1
  have hid : readEntityId w₂ (entityAddress c.op.entityKey) =
      readEntityId w (entityAddress c.op.entityKey) := by
    have hne : slotAddrToId (entityAddress c.op.entityKey) ≠
        slotPayloadReferenceNonce c.ctx.caller auth.nonce :=
      fun heq => nomatch Scope.slot_inj (hr.slots.target (by rw [htype]; decide)).1
        (hr.slots.reference auth href.valid) heq
    exact readEntityId_congr (by rw [hslot, Function.update_of_ne hne])
  obtain ⟨v, m, hrem, hins⟩ := hr.exists_rewrite htype (by decide) hlive
    (wellFormed_updatedRecord e href) (fun a ha => posts_updatedRecord htype href ha)
    (OpCall.editsOf_update htype href.convert href.valid) (recordDiff_update e attributes auth)
    (fun a => (hcode a).symm)
  unfold applyUpdate
  refine Runs.exists_ok_bind href.names (Runs.exists_ok_bind (loadEntityForOwner_of_ownedBy hby) ?_)
  refine Runs.exists_ok_bind href.convert (Runs.exists_ok_bind hconsume ?_)
  refine Runs.exists_ok_bind hpaid (Runs.exists_ok_bind
    (a := v.setCode (entityAddress c.op.entityKey) (updatedRecord e c attributes auth).encodeAsCode)
    (liftDb_ok.mpr ?_) ⟨_, rfl⟩)
  unfold EntityDb.update
  refine Runs.ok_bind.mpr ⟨e, readEntity_ok.mpr ((hcode _).symm ▸ hby.load), ?_⟩
  refine Runs.ok_bind.mpr ⟨v, ?_, rfl⟩
  rw [hid]
  exact Runs.ok_bind.mpr ⟨m, hrem, hins⟩

/-- One posting moves to another value. -/
theorem edits_singleton {i : UInt64} {a b : Annotation} {v : World} (h : Edits w v i [a] [b]) :
    ∃ m, removeFromIndexes w a.key a.value i a.tier2 = .ok m ∧
      insertIntoIndexes m b.key b.value i b.tier2 = .ok v := by
  obtain ⟨m, hrem, hins⟩ := h
  obtain ⟨m', hm', hnil⟩ := Runs.foldlM_cons_ok.mp hrem
  obtain ⟨v', hv', hnil'⟩ := Runs.foldlM_cons_ok.mp hins
  obtain rfl := Except.ok.inj hnil
  obtain rfl := Except.ok.inj hnil'
  exact ⟨m', hm', hv'⟩

/-- An extension that the machine takes. -/
theorem Ready.exists_extend (hr : Ready S chainId w h R c)
    (htype : c.op.operationType = opExtend)
    (hnext : R.nextExtend c (entityAddress c.op.entityKey) = some R') :
    ∃ w', applyExtend c.ctx w c.op = .ok w' := by
  obtain ⟨⟨i, e⟩, howned, hnext⟩ := Option.bind_eq_some_iff.mp hnext
  split at hnext
  · next hlater =>
    have hby := hr.ownedBy howned
    have hlive := hr.live (Registry.owned_some howned).1
    have hwf : (extendedRecord e c).WellFormed :=
      (hr.registered.recorded _ e hlive).wellFormed.mono rfl rfl rfl
    obtain ⟨v, hedits⟩ := hr.exists_rewrite htype (by decide) hlive hwf
      (fun a ha => posts_extendedRecord htype ha) (OpCall.editsOf_extend htype)
      (recordDiff_extend e) (fun _ => rfl)
    obtain ⟨m, hrem, hins⟩ := edits_singleton hedits
    unfold applyExtend
    refine Runs.exists_ok_bind (a := ()) (ensure_ok.mpr (by simpa using hlater.1)) ?_
    refine Runs.exists_ok_bind (loadEntityForOwner_of_ownedBy hby) ?_
    refine Runs.exists_ok_bind (a := ()) (ensure_ok.mpr (decide_eq_true hlater.2)) ?_
    refine Runs.exists_ok_bind
      (a := v.setCode (entityAddress c.op.entityKey) (extendedRecord e c).encodeAsCode)
      (liftDb_ok.mpr ?_) ⟨_, rfl⟩
    unfold EntityDb.extend
    exact Runs.ok_bind.mpr ⟨e, readEntity_ok.mpr hby.load, Runs.ok_bind.mpr ⟨m, hrem,
      Runs.ok_bind.mpr ⟨v, hins, rfl⟩⟩⟩
  · cases hnext

/-- A transfer that the machine takes. -/
theorem Ready.exists_transfer (hr : Ready S chainId w h R c)
    (htype : c.op.operationType = opTransfer)
    (hnext : R.nextTransfer c (entityAddress c.op.entityKey) = some R') :
    ∃ w', applyTransfer c.ctx w c.op = .ok w' := by
  obtain ⟨⟨i, e⟩, howned, hnext⟩ := Option.bind_eq_some_iff.mp hnext
  split at hnext
  · next hother =>
    have hby := hr.ownedBy howned
    have hlive := hr.live (Registry.owned_some howned).1
    have hwf : (transferredRecord e c).WellFormed :=
      (hr.registered.recorded _ e hlive).wellFormed.mono rfl rfl rfl
    obtain ⟨v, hedits⟩ := hr.exists_rewrite htype (by decide) hlive hwf
      (fun a ha => posts_transferredRecord htype ha) (OpCall.editsOf_transfer htype)
      (recordDiff_transfer e) (fun _ => rfl)
    obtain ⟨m, hrem, hins⟩ := edits_singleton hedits
    unfold applyTransfer
    refine Runs.exists_ok_bind (loadEntityForOwner_of_ownedBy hby) ?_
    refine Runs.exists_ok_bind (a := ()) (ensure_ok.mpr (by simpa using hother.1)) ?_
    refine Runs.exists_ok_bind (a := ()) (ensure_ok.mpr (by simpa using hother.2)) ?_
    refine Runs.exists_ok_bind
      (a := v.setCode (entityAddress c.op.entityKey) (transferredRecord e c).encodeAsCode)
      (liftDb_ok.mpr ?_) ⟨_, rfl⟩
    unfold EntityDb.transfer
    exact Runs.ok_bind.mpr ⟨e, readEntity_ok.mpr hby.load, Runs.ok_bind.mpr ⟨m, hrem,
      Runs.ok_bind.mpr ⟨v, hins, rfl⟩⟩⟩
  · cases hnext

/-- What is live can be deleted and expired below the checks. -/
theorem Ready.exists_dbDelete (hr : Ready S chainId w h R c)
    (htype : c.op.operationType = opDelete ∨ c.op.operationType = opExpire)
    (hlive : Live S chainId w (entityAddress c.op.entityKey) e) :
    ∃ w', EntityDb.delete w c.op.entityKey = .ok w' := by
  obtain ⟨v, m, hrem, -⟩ := hr.exists_removal htype hlive
  unfold EntityDb.delete
  exact Runs.exists_ok_bind (readEntity_ok.mpr hlive.2) (Runs.exists_ok_bind hrem ⟨_, rfl⟩)

theorem Ready.exists_delete (hr : Ready S chainId w h R c)
    (htype : c.op.operationType = opDelete)
    (hnext : R.nextDelete c (entityAddress c.op.entityKey) = some R') :
    ∃ w', applyDelete c.ctx w c.op = .ok w' := by
  obtain ⟨⟨i, e⟩, howned, -⟩ := Option.map_eq_some_iff.mp hnext
  obtain ⟨v, hv⟩ := hr.exists_dbDelete (.inl htype) (hr.live (Registry.owned_some howned).1)
  unfold applyDelete
  exact Runs.exists_ok_bind (loadEntityForOwner_of_ownedBy (hr.ownedBy howned))
    (Runs.exists_ok_bind (liftDb_ok.mpr hv) ⟨_, rfl⟩)

theorem Ready.exists_expire (hr : Ready S chainId w h R c)
    (htype : c.op.operationType = opExpire)
    (hnext : R.nextExpire c (entityAddress c.op.entityKey) = some R') :
    ∃ w', applyExpire c.ctx w c.op = .ok w' := by
  obtain ⟨⟨i, e⟩, hentry, hnext⟩ := Option.bind_eq_some_iff.mp hnext
  split at hnext
  · next hexpired =>
    have hlive := hr.live hentry
    obtain ⟨v, hv⟩ := hr.exists_dbDelete (.inr htype) hlive
    unfold applyExpire
    refine Runs.exists_ok_bind (loadEntity_some.mpr ⟨e, hlive.2, rfl⟩) ?_
    exact Runs.exists_ok_bind (a := ()) (ensure_ok.mpr (decide_eq_true hexpired))
      (Runs.exists_ok_bind (liftDb_ok.mpr hv) ⟨_, rfl⟩)
  · cases hnext

/-- **Nothing below the checks fails**: a step of the machine that is paid for is accepted. -/
theorem Ready.exists_opStep (hr : Ready S chainId w h R c) (hnext : R.next c = some R')
    (hpay : c.Payable w) : ∃ w', opStep w c = .ok w' := by
  unfold Registry.next at hnext
  unfold opStep applyOp
  split at hnext
  · next htype =>
    rw [if_pos htype]
    exact hr.exists_create htype hnext hpay
  next hcreate =>
  rw [if_neg hcreate]
  split at hnext
  · next htype =>
    rw [if_pos htype]
    exact hr.exists_update htype hnext hpay
  next hupdate =>
  rw [if_neg hupdate]
  split at hnext
  · next htype =>
    rw [if_pos htype]
    exact hr.exists_extend htype hnext
  next hextend =>
  rw [if_neg hextend]
  split at hnext
  · next htype =>
    rw [if_pos htype]
    exact hr.exists_transfer htype hnext
  next htransfer =>
  rw [if_neg htransfer]
  split at hnext
  · next htype =>
    rw [if_pos htype]
    exact hr.exists_delete htype hnext
  next hdelete =>
  rw [if_neg hdelete]
  split at hnext
  · next htype =>
    rw [if_pos htype]
    exact hr.exists_expire htype hnext
  · cases hnext

/-- **Exactness**: an operation is accepted exactly when the machine takes it and its payment goes
    through. -/
theorem Ready.opStep_iff (hr : Ready S chainId w h R c) (hN : Numbered S chainId w h)
    (hchain : c.ctx.chainId = chainId) (hlt : creates h + 1 < 2 ^ 64) :
    (∃ w', opStep w c = .ok w') ↔ (∃ R', R.next c = some R') ∧ c.Payable w := by
  constructor
  · rintro ⟨w', hstep⟩
    have happlied := applied_of_opStep hr.slots hstep
    have hsound : Sound S ⟨w, c, w'⟩ := ⟨hr.slots, hr.accounts⟩
    have hchange := change_of_applied hr.registered hsound hchain happlied
    have hmade : Made S chainId h ⟨w, c, w'⟩ :=
      ⟨hr.registered, hsound, hchain, happlied, hchange, hr.registered.step hchange happlied⟩
    have hlt' : creates (h ++ [⟨w, c, w'⟩]) < 2 ^ 64 := by
      rw [creates_snoc]
      split <;> omega
    obtain ⟨R', hnext, -⟩ := hr.abstracts.step hmade hstep hN hr.only hlt'
    exact ⟨⟨R', hnext⟩, payable_of_opStep hstep⟩
  · rintro ⟨⟨R', hnext⟩, hpay⟩
    exact hr.exists_opStep hnext hpay

end Ready

section Runs

variable [Host] {S : Scope} {chainId : UInt64} {w w' : World} {h : History} {x : OpTransition}
  {steps : List Chain.Step}

theorem Usable.congr (hU : Usable S w)
    (hderived : ∀ p ∈ S.accounts, w'.code (derivedAddress p) = w.code (derivedAddress p)) :
    Usable S w' := by
  obtain ⟨y, hP, hT⟩ := hU
  exact ⟨y, hP.congr (fun k v hkv => hderived _ hkv.pair) (fun _ _ _ => rfl),
    hT.congr (fun k hk => hderived _ hk) fun _ _ => rfl⟩

/-- **Step**: an accepted operation leaves usable accounts. -/
theorem Usable.step (hU : Usable S x.pre) (hmade : Made S chainId h x)
    (hN : Numbered S chainId x.pre h) (honly : OnlyEntities S chainId x.pre)
    (hslots : ∀ c ∈ x.label.treeCalls x.pre, c.op.KeepsSlots c.tree) : Usable S x.post := by
  obtain ⟨y, hP, hT⟩ := hU
  obtain ⟨i, rem, ins, hr⟩ := hmade.reindexed hN honly
  obtain ⟨code, slots, event, heffect⟩ := hr.effect
  obtain ⟨u, v, hu, hedits, hcode⟩ := heffect.edits
  have hcalls : editTreeCalls u i rem ins = x.label.treeCalls x.pre := by
    rw [OpCall.treeCalls, hr.edits]
    exact SameCode.editTreeCalls hu hedits
  have hmidP : PairsHold S Set.univ u y := hP.congr (fun _ _ _ => hu _) fun _ _ _ => rfl
  have hmidT : TreesHold S Set.univ u y := hT.congr (fun _ _ => hu _) fun _ _ => rfl
  refine ⟨_, (hmidP.edits hr.rem_covers hr.ins_covers hedits).congr (fun k v hkv => ?_)
    (fun _ _ _ => rfl), (hmidT.edits hmidP hr.rem_covers hr.ins_covers hr.ins_length hedits
    fun c hc _ => hslots c (hcalls ▸ hc)).congr (fun k hk => ?_) fun _ _ => rfl⟩
  · rw [hcode, if_neg (hr.target.ne_pairAddress hkv.pair).symm]
  · rw [hcode, if_neg (hr.target.ne_indexAddress hk).symm]

/-- The accounts of the index are usable after every run whose calls keep the slots of the trees. -/
theorem usable_run (hrun : Chain.AllowedRun chainId S.foreign steps)
    (hsound : SoundHistory S (Chain.run steps).history)
    (honly : OnlyEntitiesIn S chainId (Chain.run steps).history)
    (hlt : creates (Chain.run steps).history < 2 ^ 64)
    (hslots : KeepsSlotsIn Set.univ (Chain.run steps).history) :
    Usable S (Chain.run steps).world := by
  have hgen := indexHolds_genesis S chainId Set.univ Set.univ
  exact entity_invariant (Q := fun w _ => Usable S w) ⟨_, hgen.pairs, hgen.trees⟩
    (fun h x hx _ hmade hN hpre hU => hU.step hmade hN hpre fun c hc => hslots x hx c hc trivial)
    (fun w w' h hsame hU => hU.congr hsame.derived) hrun hsound honly hlt

/-- **What is accepted**: after every run with fewer than `2 ^ 64 - 1` creates in which only entities
    look like entities and the calls on trees keep their slots, an operation inside the scope is
    accepted exactly when the machine takes it and its payment goes through: what the machine
    takes never fails in the accounts of the index. -/
theorem accepted_iff_run (hrun : Chain.AllowedRun chainId S.foreign steps)
    (hsound : SoundHistory S (Chain.run steps).history)
    (honly : OnlyEntitiesIn S chainId (Chain.run steps).history)
    (hlt : creates (Chain.run steps).history < 2 ^ 64 - 1)
    (hslots : KeepsSlotsIn Set.univ (Chain.run steps).history)
    (hnow : OnlyEntities S chainId (Chain.run steps).world) {c : OpCall}
    (hchain : c.ctx.chainId = chainId) (hcovered : S.SlotsCovered (Chain.run steps).world c)
    (haccounts : S.AccountsCovered (Chain.run steps).world c)
    (hkeeps : ∀ call ∈ c.treeCalls (Chain.run steps).world, call.op.KeepsSlots call.tree) :
    ∃ R, Registry.after (Chain.run steps).history.calls = some R ∧
      ((∃ w', opStep (Chain.run steps).world c = .ok w') ↔
        (∃ R', R.next c = some R') ∧ c.Payable (Chain.run steps).world) := by
  have hlt' : creates (Chain.run steps).history < 2 ^ 64 := hlt.trans (by decide)
  obtain ⟨R, hR, hA⟩ := exists_abstracts_run hrun hsound honly hlt'
  have hready : Ready S chainId (Chain.run steps).world (Chain.run steps).history R c :=
    ⟨(registered_run hrun hsound).1, hA, usable_run hrun hsound honly hlt' hslots, hnow, hcovered,
      haccounts, hkeeps⟩
  exact ⟨R, hR, hready.opStep_iff (numbered_run hrun hsound honly hlt').1 hchain (by omega)⟩

end Runs

theorem creates_le_length (h : History) : creates h ≤ h.length := List.countP_le_length

/-- The owner deletes the first entity. -/
def DevChain.deleteCall : OpCall := ⟨contextOf devCaller 6, plainOp opDelete createKey 0 0⟩

/-- The deletion is inside the scope, and its calls are made on small trees. -/
def DevChain.deleteCheck (w : World) : Bool :=
  slotsCheck tradeSlots w deleteCall && accountsCheck tradeAccounts w deleteCall &&
  onlyCheck (otherAddresses tradeAnnotations []) w &&
  (deleteCall.treeCalls w).all fun c => c.tree.root.isSmall && decide (c.tree.len + 1 < 2 ^ 32)

theorem DevChain.deleteCheck_openRun : deleteCheck (Chain.run openRun).world = true := by
  rw [run_openRun]
  decide +kernel

/-- What looks like an entity after the creates is one. -/
theorem onlyEntities_openRun :
    OnlyEntities DevChain.tradeScope devChainId (Chain.run DevChain.openRun).world := by
  have hcheck := DevChain.deleteCheck_openRun
  simp only [DevChain.deleteCheck, Bool.and_eq_true] at hcheck
  have hsupport := (supported_run DevChain.facts_openRun.allowed DevChain.facts_openRun.sound).1
  exact DevChain.onlyEntities_of_check DevChain.contains_tradeScope hsupport hcheck.1.2

theorem accepted_deleteCall : ∃ R,
    Registry.after (Chain.run DevChain.openRun).history.calls = some R ∧
    ((∃ w', opStep (Chain.run DevChain.openRun).world DevChain.deleteCall = .ok w') ↔
      (∃ R', R.next DevChain.deleteCall = some R') ∧
        DevChain.deleteCall.Payable (Chain.run DevChain.openRun).world) := by
  have hcreates : creates (Chain.run DevChain.openRun).history < 2 ^ 64 - 1 := by
    have hle := creates_le_length (Chain.run DevChain.openRun).history
    have hlen := congrArg List.length DevChain.openFacts_openRun.calls
    rw [List.length_map] at hlen
    rw [hlen] at hle
    exact hle.trans_lt (by decide)
  have hcheck := DevChain.deleteCheck_openRun
  simp only [DevChain.deleteCheck, Bool.and_eq_true] at hcheck
  obtain ⟨⟨⟨hslots, haccounts⟩, -⟩, hsmall⟩ := hcheck
  refine accepted_iff_run DevChain.facts_openRun.allowed DevChain.facts_openRun.sound
    DevChain.facts_openRun.only hcreates (keepsSlotsIn_openRun Set.univ)
    onlyEntities_openRun rfl (DevChain.slotsCovered_of_check (fun n hn => hn) hslots)
    (DevChain.accountsCovered_of_check (fun p hp => hp) haccounts) fun call hcall => ?_
  have hone := List.all_eq_true.mp hsmall call hcall
  rw [Bool.and_eq_true, decide_eq_true_eq] at hone
  exact SetOp.keepsSlots_of_isSmall hone.1 hone.2 call.op

end Arkiv
