import Mathlib
import Arkiv.Registry.ById
import Arkiv.Registry.SingleUse

/-!
# The registry as a machine

What accounts and slots stand for: numbered records at addresses, a counter, the
nonces of owners and the references that they have spent. An accepted operation
is a step of this machine, and nothing else that happens on the chain is.

## Main definitions

- `Registry`, `Registry.next` — the machine and its six operations
- `Abstracts` — the world stands for a registry
- `Abstracts.step` — an accepted operation is a step of the machine
- `refines_run` — the world after a run stands for the registry after its operations
- `sameEntities_run` — only the accepted operations count
-/

namespace Arkiv

open ByteString

/-- Numbered records, the next ID, the next nonce of each owner and the spent references. -/
structure Registry where
  entries : Address → Option (ℕ × EntityRlp)
  count : ℕ
  nonces : Address → UInt32
  spent : Address → B256 → Bool

namespace Registry

def empty : Registry := ⟨fun _ => none, 0, fun _ => 0, fun _ _ => false⟩

/-- The reference of the owner is spent. -/
def spend (R : Registry) (owner : Address) (m : B256) : Registry :=
  { R with spent := fun o n => R.spent o n || decide (o = owner ∧ n = m) }

/-- The record at the address is replaced or cleared. -/
def put (R : Registry) (a : Address) (entry : Option (ℕ × EntityRlp)) : Registry :=
  { R with entries := Function.update R.entries a entry }

section Next

variable [Host]

/-- The attributes and the payload reference of a create or an update. -/
def accepts (R : Registry) (c : OpCall) : Option (List Attribute × PayloadReferenceAuth) :=
  match validateAttributeNames c.op.attributes, convertAttributes c.op.attributes,
    validatePayloadReference c.op.payload c.ctx.chainId with
  | .ok _, .ok attributes, .ok auth =>
    if mime128ToBytes c.op.contentType = payloadReferenceContentType ∧
        R.spent c.ctx.caller auth.nonce = false then
      some (attributes, auth)
    else none
  | _, _, _ => none

/-- The entity at the address, when the caller owns it and it has not expired. -/
def owned (R : Registry) (c : OpCall) (a : Address) : Option (ℕ × EntityRlp) :=
  (R.entries a).filter fun entry =>
    decide (entry.2.owner = c.ctx.caller ∧ c.ctx.currentBlock < entry.2.expiresAt)

omit [Host] in
theorem owned_some {R : Registry} {c : OpCall} {a : Address} {i : ℕ} {e : EntityRlp}
    (h : R.owned c a = some (i, e)) :
    R.entries a = some (i, e) ∧ e.owner = c.ctx.caller ∧ c.ctx.currentBlock < e.expiresAt := by
  obtain ⟨hentry, howner⟩ := Option.filter_eq_some_iff.mp h
  exact ⟨hentry, of_decide_eq_true howner⟩

/-- A new record, with the key of the owner's next nonce. -/
def newRecord (R : Registry) (c : OpCall) (attributes : List Attribute)
    (auth : PayloadReferenceAuth) : EntityRlp where
  payload := c.op.payload
  creator := c.ctx.caller
  createdAtBlock := c.ctx.currentBlock
  owner := c.ctx.caller
  expiresAt := satAdd c.ctx.currentBlock c.op.btl.toUInt64
  contentType := auth.contentType
  key := deriveEntityKey c.ctx.chainId c.ctx.caller (R.nonces c.ctx.caller)
  attributes := attributes
  lastModifiedAtBlock := c.ctx.currentBlock

/-- The record is numbered and the nonce is used up. -/
def mint (R : Registry) (owner : Address) (e : EntityRlp) : Registry :=
  { R.put (entityAddress e.key) (some (R.count, e)) with
    count := R.count + 1
    nonces := Function.update R.nonces owner (R.nonces owner + 1) }

def nextCreate (R : Registry) (c : OpCall) : Option Registry :=
  if c.op.btl = 0 ∨ 2 ^ 32 ≤ (R.nonces c.ctx.caller).toNat + 1 then none
  else (R.accepts c).map fun p =>
    (R.spend c.ctx.caller p.2.nonce).mint c.ctx.caller (R.newRecord c p.1 p.2)

def nextUpdate (R : Registry) (c : OpCall) (a : Address) : Option Registry :=
  (R.owned c a).bind fun entry => (R.accepts c).map fun p =>
    (R.spend c.ctx.caller p.2.nonce).put a (some (entry.1, updatedRecord entry.2 c p.1 p.2))

/-- Time is only added. -/
def nextExtend (R : Registry) (c : OpCall) (a : Address) : Option Registry :=
  (R.owned c a).bind fun entry =>
    if c.op.btl ≠ 0 ∧ entry.2.expiresAt < (extendedRecord entry.2 c).expiresAt then
      some (R.put a (some (entry.1, extendedRecord entry.2 c)))
    else none

def nextTransfer (R : Registry) (c : OpCall) (a : Address) : Option Registry :=
  (R.owned c a).bind fun entry =>
    if c.op.newOwner ≠ 0 ∧ c.op.newOwner ≠ entry.2.owner then
      some (R.put a (some (entry.1, transferredRecord entry.2 c)))
    else none

def nextDelete (R : Registry) (c : OpCall) (a : Address) : Option Registry :=
  (R.owned c a).map fun _ => R.put a none

/-- Anyone may clear what has expired. -/
def nextExpire (R : Registry) (c : OpCall) (a : Address) : Option Registry :=
  (R.entries a).bind fun entry =>
    if entry.2.expiresAt ≤ c.ctx.currentBlock then some (R.put a none) else none

/-- One operation on the registry. -/
def next (R : Registry) (c : OpCall) : Option Registry :=
  if c.op.operationType = opCreate then R.nextCreate c
  else if c.op.operationType = opUpdate then R.nextUpdate c (entityAddress c.op.entityKey)
  else if c.op.operationType = opExtend then R.nextExtend c (entityAddress c.op.entityKey)
  else if c.op.operationType = opTransfer then R.nextTransfer c (entityAddress c.op.entityKey)
  else if c.op.operationType = opDelete then R.nextDelete c (entityAddress c.op.entityKey)
  else if c.op.operationType = opExpire then R.nextExpire c (entityAddress c.op.entityKey)
  else none

theorem next_create {R : Registry} {c : OpCall} (h : c.op.operationType = opCreate) :
    R.next c = R.nextCreate c := if_pos h

theorem next_update {R : Registry} {c : OpCall} (h : c.op.operationType = opUpdate) :
    R.next c = R.nextUpdate c (entityAddress c.op.entityKey) := by
  rw [next, h, if_neg (by decide), if_pos rfl]

theorem next_extend {R : Registry} {c : OpCall} (h : c.op.operationType = opExtend) :
    R.next c = R.nextExtend c (entityAddress c.op.entityKey) := by
  rw [next, h, if_neg (by decide), if_neg (by decide), if_pos rfl]

theorem next_transfer {R : Registry} {c : OpCall} (h : c.op.operationType = opTransfer) :
    R.next c = R.nextTransfer c (entityAddress c.op.entityKey) := by
  rw [next, h, if_neg (by decide), if_neg (by decide), if_neg (by decide), if_pos rfl]

theorem next_delete {R : Registry} {c : OpCall} (h : c.op.operationType = opDelete) :
    R.next c = R.nextDelete c (entityAddress c.op.entityKey) := by
  rw [next, h, if_neg (by decide), if_neg (by decide), if_neg (by decide), if_neg (by decide),
    if_pos rfl]

theorem next_expire {R : Registry} {c : OpCall} (h : c.op.operationType = opExpire) :
    R.next c = R.nextExpire c (entityAddress c.op.entityKey) := by
  rw [next, h, if_neg (by decide), if_neg (by decide), if_neg (by decide), if_neg (by decide),
    if_neg (by decide), if_pos rfl]

/-- The registry after a list of operations. -/
def after (cs : List OpCall) : Option Registry := cs.foldlM next empty

theorem after_snoc (cs : List OpCall) (c : OpCall) :
    after (cs ++ [c]) = (after cs).bind fun R => R.next c := by
  rw [after, List.foldlM_append]
  refine congrArg _ (funext fun R => ?_)
  rw [List.foldlM_cons]
  exact bind_pure _

end Next

end Registry

section Abstraction

variable [Host] {S : Scope} {chainId : UInt64} {w w' : World} {R : Registry} {h : History}
  {x : OpTransition}

/-- The entries are the live entities with their IDs. -/
def EntriesMatch (S : Scope) (chainId : UInt64) (w : World)
    (entries : Address → Option (ℕ × EntityRlp)) : Prop :=
  ∀ a i e, entries a = some (i, e) ↔ Live S chainId w a e ∧ (readEntityId w a).toNat = i

/-- The world stands for the registry, on the slots of the scope. -/
structure Abstracts (S : Scope) (chainId : UInt64) (w : World) (R : Registry) : Prop where
  entries : EntriesMatch S chainId w R.entries
  count : R.count = (entityCount w).toNat
  nonces : ∀ o, .nonces o ∈ S.slots → R.nonces o = readNonce w o
  spent : ∀ o m, .payloadReferenceNonce o m ∈ S.slots →
    R.spent o m = payloadReferenceNonceUsed w o m

theorem abstracts_empty : Abstracts S chainId World.genesis .empty where
  entries a i e := by
    refine iff_of_false (by simp [Registry.empty]) ?_
    rintro ⟨he, -⟩
    exact not_liveAt_of_nil rfl e he.2
  count := rfl
  nonces _ _ := rfl
  spent _ _ _ := rfl

theorem Abstracts.congr (hA : Abstracts S chainId w R) (hsame : SameRegistry S chainId w w') :
    Abstracts S chainId w' R where
  entries a i e := by
    rw [hA.entries a i e, readEntityId_congr (hsame.slot _)]
    exact and_congr_left fun _ => and_congr_right fun ha => (LiveAt.congr (hsame.entity a ha) e).symm
  count := hA.count.trans (congrArg _ (entityCount_congr (hsame.slot _)).symm)
  nonces o ho := (hA.nonces o ho).trans (readNonce_congr (hsame.slot _)).symm
  spent o m hm := by
    rw [hA.spent o m hm, payloadReferenceNonceUsed, payloadReferenceNonceUsed, hsame.slot]

section Entries

variable {E : Address → Option (ℕ × EntityRlp)} {a : Address} {e e' : EntityRlp}

theorem EntriesMatch.mint {ctx : CallContext} (hE : EntriesMatch S chainId w E)
    (hc : MintChange S chainId w w' ctx e) (hR : Registered S chainId w h) :
    EntriesMatch S chainId w'
      (Function.update E (entityAddress e.key) (some ((entityCount w).toNat, e))) := by
  intro b i f
  by_cases hb : b = entityAddress e.key
  · subst hb
    rw [Function.update_self, Option.some_inj, Prod.mk.injEq, hc.live_iff, if_pos rfl,
      hc.readEntityId_new, and_comm, eq_comm (a := e)]
  · rw [Function.update_of_ne hb, hE, hc.live_iff, if_neg hb]
    exact and_congr_right fun hf => by rw [readEntityId_congr (hc.addr_slot hR hf)]

theorem EntriesMatch.rewrite (hE : EntriesMatch S chainId w E)
    (hc : RewriteChange S chainId w w' a e e') (hR : Registered S chainId w h) :
    EntriesMatch S chainId w' (Function.update E a (some ((readEntityId w a).toNat, e'))) := by
  have hid : ∀ b f, Live S chainId w b f → readEntityId w' b = readEntityId w b := fun b f hf =>
    readEntityId_congr (hc.addr_slot (hR.recorded b f hf).addr_mem)
  intro b i f
  by_cases hb : b = a
  · subst hb
    rw [Function.update_self, Option.some_inj, Prod.mk.injEq, hc.live_iff, if_pos rfl,
      hid b e hc.live, and_comm, eq_comm (a := e')]
  · rw [Function.update_of_ne hb, hE, hc.live_iff, if_neg hb]
    exact and_congr_right fun hf => by rw [hid b f hf]

theorem EntriesMatch.remove (hE : EntriesMatch S chainId w E)
    (hc : RemoveChange S chainId w w' a e) (hR : Registered S chainId w h) :
    EntriesMatch S chainId w' (Function.update E a none) := by
  intro b i f
  rw [hc.live_iff]
  by_cases hb : b = a
  · subst hb
    rw [Function.update_self]
    exact iff_of_false (by simp) fun hf => hf.1.1 rfl
  · rw [Function.update_of_ne hb, hE, and_iff_right hb]
    exact and_congr_right fun hf => by
      rw [readEntityId_congr (hc.addr_slot (hR.recorded b f hf).addr_mem hb)]

end Entries

/-- The slot of a reference after an operation. -/
theorem ReferenceWrite.used_iff {o : Address} {m : B256} (hw : ReferenceWrite x o m) :
    payloadReferenceNonceUsed x.post o m = true ↔
      payloadReferenceNonceUsed x.pre o m = true ∨ x.Uses m ∧ o = x.label.ctx.caller := by
  by_cases huse : x.Uses m ∧ o = x.label.ctx.caller
  · refine iff_of_true ?_ (.inr huse)
    rw [payloadReferenceNonceUsed, (hw.fresh huse.1 huse.2).2]
    decide
  · rw [payloadReferenceNonceUsed, hw.kept huse, or_iff_left huse, payloadReferenceNonceUsed]

/-- A create or an update spends its reference. -/
theorem Abstracts.spent_of_accepted (hA : Abstracts S chainId x.pre R)
    (hmade : Made S chainId h x) (hcarries : x.CarriesReference) {auth : PayloadReferenceAuth}
    (hvalid : validatePayloadReference x.label.op.payload x.label.ctx.chainId = .ok auth)
    (o : Address) (m : B256) (hm : .payloadReferenceNonce o m ∈ S.slots) :
    (R.spend x.label.ctx.caller auth.nonce).spent o m = payloadReferenceNonceUsed x.post o m := by
  have hused := (hmade.applied.referenceWrite hmade.sound.slots hm).used_iff
  have huses : OpTransition.Uses ⟨x.pre, x.label, x.post⟩ m ↔ auth.nonce = m :=
    uses_iff hcarries hvalid
  apply Bool.eq_iff_iff.mpr
  rw [hused, huses, Registry.spend, Bool.or_eq_true, decide_eq_true_eq, hA.spent o m hm]
  exact or_congr_right (and_comm.trans (and_congr_left' eq_comm))

/-- Other operations spend nothing. -/
theorem Abstracts.spent_of_type (hA : Abstracts S chainId x.pre R) (hmade : Made S chainId h x)
    {k : UInt8} (htype : x.label.op.operationType = k) (hcreate : k ≠ opCreate)
    (hupdate : k ≠ opUpdate) (o : Address) (m : B256)
    (hm : .payloadReferenceNonce o m ∈ S.slots) :
    R.spent o m = payloadReferenceNonceUsed x.post o m := by
  have hused := (hmade.applied.referenceWrite hmade.sound.slots hm).used_iff
  have hnot : ¬OpTransition.Uses ⟨x.pre, x.label, x.post⟩ m := not_uses_of htype hcreate hupdate m
  apply Bool.eq_iff_iff.mpr
  rw [hused, hA.spent o m hm]
  exact (or_iff_left fun huse => hnot huse.1).symm

/-- The reference of an accepted create or update and the payment for it. -/
theorem reference_of_opStep {c : OpCall} (h : opStep w c = .ok w') (hpays : c.Pays) :
    ∃ w₁ auth w₂, validateRequiredPayloadReference c.ctx w c.op.payload
        (mime128ToBytes c.op.contentType) = .ok (w₁, auth) ∧
      applyPayloadProviderPayment c.ctx w₁ auth = .ok w₂ := by
  unfold opStep applyOp at h
  split at h
  · unfold applyCreate at h
    obtain ⟨_, -, h⟩ := Runs.ok_bind.mp h
    obtain ⟨_, -, h⟩ := Runs.ok_bind.mp h
    obtain ⟨_, -, h⟩ := Runs.ok_bind.mp h
    obtain ⟨⟨w₁, auth⟩, href, h⟩ := Runs.ok_bind.mp h
    obtain ⟨w₂, hpay, -⟩ := Runs.ok_bind.mp h
    exact ⟨w₁, auth, w₂, href, hpay⟩
  next hcreate =>
  rw [if_pos (hpays.resolve_left hcreate)] at h
  unfold applyUpdate at h
  obtain ⟨_, -, h⟩ := Runs.ok_bind.mp h
  obtain ⟨_, -, h⟩ := Runs.ok_bind.mp h
  obtain ⟨_, -, h⟩ := Runs.ok_bind.mp h
  obtain ⟨⟨w₁, auth⟩, href, h⟩ := Runs.ok_bind.mp h
  obtain ⟨w₂, hpay, -⟩ := Runs.ok_bind.mp h
  exact ⟨w₁, auth, w₂, href, hpay⟩

/-- Creates and updates say that their payload is a reference. -/
theorem contentType_of_opStep {c : OpCall} (h : opStep w c = .ok w') (hpays : c.Pays) :
    mime128ToBytes c.op.contentType = payloadReferenceContentType := by
  obtain ⟨w₁, auth, w₂, href, -⟩ := reference_of_opStep h hpays
  unfold validateRequiredPayloadReference at href
  obtain ⟨_, hcheck, -⟩ := Runs.ok_bind.mp href
  exact beq_iff_eq.mp (ensure_ok.mp hcheck)

/-- What the code accepts as a reference the machine accepts, and nothing else. -/
theorem Abstracts.accepts_iff (hA : Abstracts S chainId w R) {c : OpCall} (hS : S.SlotsCovered w c)
    {attributes : List Attribute} {auth : PayloadReferenceAuth} :
    R.accepts c = some (attributes, auth) ↔ ReferenceAccepted w c attributes auth ∧
      mime128ToBytes c.op.contentType = payloadReferenceContentType := by
  constructor
  · intro h
    unfold Registry.accepts at h
    split at h
    · next hnames hconv hvalid =>
      split at h
      · next hfree =>
        obtain ⟨rfl, rfl⟩ := Prod.mk.inj (Option.some.inj h)
        exact ⟨⟨hnames, hconv, hvalid, (hA.spent _ _ (hS.reference _ hvalid)).symm.trans hfree.2⟩,
          hfree.1⟩
      · cases h
    · cases h
  · rintro ⟨href, hmime⟩
    have hspent := hA.spent c.ctx.caller auth.nonce (hS.reference auth href.valid)
    rw [href.unused] at hspent
    simp only [Registry.accepts, href.names, href.convert, href.valid, hspent, hmime, and_self,
      if_true]

theorem Abstracts.entry (hA : Abstracts S chainId w R) (honly : OnlyEntities S chainId w)
    {a : Address} {e : EntityRlp} (he : LiveAt w a e) :
    R.entries a = some ((readEntityId w a).toNat, e) :=
  (hA.entries a _ e).mpr ⟨⟨honly a e he, he⟩, rfl⟩

theorem Abstracts.owned (hA : Abstracts S chainId w R) (honly : OnlyEntities S chainId w)
    {c : OpCall} {e : EntityRlp} (howned : OwnedBy w c e) :
    R.owned c (entityAddress c.op.entityKey) =
      some ((readEntityId w (entityAddress c.op.entityKey)).toNat, e) := by
  rw [Registry.owned, hA.entry honly howned.load, Option.filter_some, if_pos]
  exact decide_eq_true ⟨howned.owner, howned.alive⟩

/-- An update, extension or transfer replaces an entry. -/
theorem Abstracts.rewrite (hA : Abstracts S chainId x.pre R) (hmade : Made S chainId h x)
    {e e' : EntityRlp} (hc : RewriteChange S chainId x.pre x.post x.target e e')
    {R' : Registry} (hspent : ∀ o m, .payloadReferenceNonce o m ∈ S.slots →
      R'.spent o m = payloadReferenceNonceUsed x.post o m) (hentries : R'.entries = R.entries)
    (hcount : R'.count = R.count) (hnonces : R'.nonces = R.nonces) :
    Abstracts S chainId x.post (R'.put x.target (some ((readEntityId x.pre x.target).toNat, e'))) where
  entries := by
    rw [Registry.put, hentries]
    exact hA.entries.rewrite hc hmade.registered
  count := hcount.trans (hA.count.trans
    (congrArg _ (entityCount_congr (hc.slot _ S.count_mem fun _ _ => by simp)).symm))
  nonces o ho := (congrFun hnonces o).trans ((hA.nonces o ho).trans (hc.readNonce_eq ho).symm)
  spent := hspent

theorem Abstracts.remove (hA : Abstracts S chainId x.pre R) (hmade : Made S chainId h x)
    {e : EntityRlp} (hc : RemoveChange S chainId x.pre x.post x.target e)
    (hspent : ∀ o m, .payloadReferenceNonce o m ∈ S.slots →
      R.spent o m = payloadReferenceNonceUsed x.post o m) :
    Abstracts S chainId x.post (R.put x.target none) where
  entries := hA.entries.remove hc hmade.registered
  count := hA.count.trans
    (congrArg _ (entityCount_congr ((hc.slot _ S.count_mem).trans (if_neg (by simp)))).symm)
  nonces o ho := (hA.nonces o ho).trans (hc.readNonce_eq ho).symm
  spent := hspent

/-- A create numbers a new entry, as long as IDs last. -/
theorem Abstracts.mint (hA : Abstracts S chainId x.pre R) (hmade : Made S chainId h x)
    (hlast : (entityCount x.pre).toNat + 1 < 2 ^ 64) {e : EntityRlp}
    (hc : MintChange S chainId x.pre x.post x.label.ctx e) {R' : Registry}
    (hspent : ∀ o m, .payloadReferenceNonce o m ∈ S.slots →
      R'.spent o m = payloadReferenceNonceUsed x.post o m) (hentries : R'.entries = R.entries)
    (hcount : R'.count = R.count) (hnonces : R'.nonces = R.nonces) :
    Abstracts S chainId x.post (R'.mint x.label.ctx.caller e) where
  entries := by
    rw [Registry.mint, Registry.put, hentries, hcount, hA.count]
    exact hA.entries.mint hc hmade.registered
  count := by
    have h1 : (1 : UInt64).toNat = 1 := rfl
    have hpost : entityCount x.post = entityCount x.pre + 1 := by
      rw [entityCount, hc.count, storageToU64_u64ToStorage]
    show R'.count + 1 = _
    rw [hcount, hA.count, hpost, UInt64.toNat_add, h1, Nat.mod_eq_of_lt hlast]
  nonces o ho := by
    show Function.update R'.nonces _ _ o = _
    rw [hnonces, Function.update_apply, readNonce, hc.nonces o ho]
    by_cases hcaller : o = x.label.ctx.caller
    · rw [if_pos hcaller, if_pos hcaller, storageToU32_u32ToStorage, ← hcaller, hA.nonces o ho]
    · rw [if_neg hcaller, if_neg hcaller, hA.nonces o ho, readNonce]
  spent := hspent

/-- **Step**: an accepted operation is a step of the machine. -/
theorem Abstracts.step (hA : Abstracts S chainId x.pre R) (hmade : Made S chainId h x)
    (hstep : opStep x.pre x.label = .ok x.post) (hN : Numbered S chainId x.pre h)
    (honly : OnlyEntities S chainId x.pre) (hlt : creates (h ++ [x]) < 2 ^ 64) :
    ∃ R', R.next x.label = some R' ∧ Abstracts S chainId x.post R' := by
  have hS := hmade.sound.slots
  have hwf : ∀ {e : EntityRlp}, LiveAt x.pre (entityAddress x.label.op.entityKey) e →
      e.WellFormed := fun hload =>
    (hmade.registered.recorded _ _ ⟨honly _ _ hload, hload⟩).wellFormed
  -- One case for each operation: the change of the world is an edit of the machine, and what the
  -- handler has checked lets the machine take it.
  cases hmade.applied with
  | create attributes auth htype hbtl href hnonce heffect =>
    have hc := hmade.mintChange htype (heffect.liveAt_target (wellFormed_createdRecord href))
    have hrecord : R.newRecord x.label attributes auth =
        createdRecord x.pre x.label attributes auth := by
      rw [Registry.newRecord, hA.nonces _ hS.nonces]
      rfl
    have hlast : (entityCount x.pre).toNat + 1 < 2 ^ 64 := by
      have hx : x.IsCreate := htype
      rw [creates_snoc, if_pos hx] at hlt
      rw [hN.count]
      exact hlt
    refine ⟨_, ?_, hA.mint hmade hlast hc (hA.spent_of_accepted hmade (.inl htype) href.valid) rfl rfl
      rfl⟩
    have hroom : ¬(x.label.op.btl = 0 ∨ 2 ^ 32 ≤ (R.nonces x.label.ctx.caller).toNat + 1) := by
      rw [hA.nonces _ hS.nonces]
      exact not_or.mpr ⟨hbtl, by omega⟩
    have haccepts := (hA.accepts_iff hS).mpr ⟨href, contentType_of_opStep hstep (.inl htype)⟩
    rw [Registry.next_create htype, Registry.nextCreate, if_neg hroom, haccepts, Option.map_some,
      hrecord]
  | update e attributes auth htype href howned heffect =>
    have hnc : ¬x.IsCreate := OpTransition.not_isCreate_of htype (by decide)
    have hc := hmade.rewriteChange honly htype (by decide) (by decide) (by decide) howned.load
      (heffect.liveAt_target (wellFormed_updatedRecord e href))
    have hnext := hA.rewrite hmade hc (hA.spent_of_accepted hmade (.inr htype) href.valid) rfl rfl
      rfl
    rw [OpTransition.target_of_not hnc] at hnext
    refine ⟨_, ?_, hnext⟩
    have haccepts := (hA.accepts_iff hS).mpr ⟨href, contentType_of_opStep hstep (.inr htype)⟩
    rw [Registry.next_update htype, Registry.nextUpdate, hA.owned honly howned, Option.bind_some,
      haccepts, Option.map_some]
  | extend e htype hbtl howned hlater heffect =>
    have hnc : ¬x.IsCreate := OpTransition.not_isCreate_of htype (by decide)
    have hc := hmade.rewriteChange honly htype (by decide) (by decide) (by decide) howned.load
      (heffect.liveAt_target ((hwf howned.load).mono rfl rfl rfl))
    have hnext := hA.rewrite hmade hc (hA.spent_of_type hmade htype (by decide) (by decide)) rfl rfl
      rfl
    rw [OpTransition.target_of_not hnc] at hnext
    refine ⟨_, ?_, hnext⟩
    rw [Registry.next_extend htype, Registry.nextExtend, hA.owned honly howned, Option.bind_some,
      if_pos ⟨hbtl, hlater⟩]
  | transfer e htype howned hzero hself heffect =>
    have hnc : ¬x.IsCreate := OpTransition.not_isCreate_of htype (by decide)
    have hc := hmade.rewriteChange honly htype (by decide) (by decide) (by decide) howned.load
      (heffect.liveAt_target ((hwf howned.load).mono rfl rfl rfl))
    have hnext := hA.rewrite hmade hc (hA.spent_of_type hmade htype (by decide) (by decide)) rfl rfl
      rfl
    rw [OpTransition.target_of_not hnc] at hnext
    refine ⟨_, ?_, hnext⟩
    rw [Registry.next_transfer htype, Registry.nextTransfer, hA.owned honly howned,
      Option.bind_some, if_pos ⟨hzero, hself⟩]
  | delete e htype howned heffect =>
    have hnc : ¬x.IsCreate := OpTransition.not_isCreate_of htype (by decide)
    have hc := hmade.removeChange honly (.inl htype) howned.load
    have hnext := hA.remove hmade hc (hA.spent_of_type hmade htype (by decide) (by decide))
    rw [OpTransition.target_of_not hnc] at hnext
    refine ⟨_, ?_, hnext⟩
    rw [Registry.next_delete htype, Registry.nextDelete, hA.owned honly howned, Option.map_some]
  | expire e htype hload hexpired heffect =>
    have hnc : ¬x.IsCreate := OpTransition.not_isCreate_of htype (by decide)
    have hc := hmade.removeChange honly (.inr htype) hload
    have hnext := hA.remove hmade hc (hA.spent_of_type hmade htype (by decide) (by decide))
    rw [OpTransition.target_of_not hnc] at hnext
    refine ⟨_, ?_, hnext⟩
    rw [Registry.next_expire htype, Registry.nextExpire, hA.entry honly hload, Option.bind_some,
      if_pos hexpired]

variable {steps : List Chain.Step}

/-- The accepted operations of a history, in order. -/
def History.calls (h : History) : List OpCall := h.map fun x => x.label

/-- The operations of a history are those that the code has accepted. -/
theorem opStep_of_mem_history (hrun : Chain.AllowedRun chainId S.foreign steps)
    (hx : x ∈ (Chain.run steps).history) : opStep x.pre x.label = .ok x.post := by
  refine Chain.invariant
    (Q := fun _ h => ∀ x ∈ h, opStep x.pre x.label = .ok x.post)
    (by simp) (fun w h c w' hQ _ hstep y hy => ?_) (fun _ _ _ _ hQ _ => hQ) (fun _ _ _ hQ => hQ)
    (fun _ _ hQ => hQ) hrun x hx
  rcases List.mem_append.mp hy with hy | hy
  · exact hQ y hy
  · rw [List.mem_singleton.mp hy]
    exact hstep

/-- The world after a run stands for the registry after its operations. -/
theorem exists_abstracts_run (hrun : Chain.AllowedRun chainId S.foreign steps)
    (hsound : SoundHistory S (Chain.run steps).history)
    (honly : OnlyEntitiesIn S chainId (Chain.run steps).history)
    (hlt : creates (Chain.run steps).history < 2 ^ 64) :
    ∃ R, Registry.after (Chain.run steps).history.calls = some R ∧
      Abstracts S chainId (Chain.run steps).world R := by
  refine entity_invariant
    (Q := fun w h => ∃ R, Registry.after h.calls = some R ∧ Abstracts S chainId w R)
    ⟨_, rfl, abstracts_empty⟩ (fun h x hx hlt hmade hN honly hpre => ?_)
    (fun w w' h hsame hpre => ?_) hrun hsound honly hlt
  · obtain ⟨R, hR, hA⟩ := hpre
    obtain ⟨R', hnext, hA'⟩ :=
      hA.step hmade (opStep_of_mem_history hrun hx) hN honly hlt
    refine ⟨R', ?_, hA'⟩
    rw [History.calls, List.map_append, List.map_singleton, Registry.after_snoc]
    exact (congrArg (Option.bind · _) hR).trans hnext
  · obtain ⟨R, hR, hA⟩ := hpre
    exact ⟨R, hR, hA.congr hsame⟩

/-- **Refinement**: after every run with fewer than `2 ^ 64` creates in which only entities look like
    entities, the accepted operations are steps of the machine, one after the other, and the world
    stands for the registry that they lead to. -/
theorem refines_run (hrun : Chain.AllowedRun chainId S.foreign steps)
    (hsound : SoundHistory S (Chain.run steps).history)
    (honly : OnlyEntitiesIn S chainId (Chain.run steps).history)
    (hlt : creates (Chain.run steps).history < 2 ^ 64) :
    ∃ R, Registry.after (Chain.run steps).history.calls = some R ∧
      EntriesMatch S chainId (Chain.run steps).world R.entries ∧
      R.count = (entityCount (Chain.run steps).world).toNat ∧
      (∀ o, .nonces o ∈ S.slots → R.nonces o = readNonce (Chain.run steps).world o) ∧
      ∀ o m, .payloadReferenceNonce o m ∈ S.slots →
        R.spent o m = payloadReferenceNonceUsed (Chain.run steps).world o m := by
  obtain ⟨R, hR, hA⟩ := exists_abstracts_run hrun hsound honly hlt
  exact ⟨R, hR, hA.entries, hA.count, hA.nonces, hA.spent⟩

/-- Two worlds with the same entities, counters and spent references. -/
structure SameEntities (S : Scope) (chainId : UInt64) (w w' : World) : Prop where
  entries : ∀ a e, Live S chainId w a e ↔ Live S chainId w' a e
  ids : ∀ a e, Live S chainId w a e → readEntityId w a = readEntityId w' a
  count : entityCount w = entityCount w'
  nonces : ∀ o, .nonces o ∈ S.slots → readNonce w o = readNonce w' o
  spent : ∀ o m, .payloadReferenceNonce o m ∈ S.slots →
    payloadReferenceNonceUsed w o m = payloadReferenceNonceUsed w' o m

/-- Worlds that stand for one registry have the same entities. -/
theorem Abstracts.sameEntities (h : Abstracts S chainId w R) (h' : Abstracts S chainId w' R) :
    SameEntities S chainId w w' where
  entries a e := by
    constructor
    · intro he
      exact ((h'.entries a _ e).mp ((h.entries a _ e).mpr ⟨he, rfl⟩)).1
    · intro he
      exact ((h.entries a _ e).mp ((h'.entries a _ e).mpr ⟨he, rfl⟩)).1
  ids a e he :=
    UInt64.toNat.inj ((h'.entries a _ e).mp ((h.entries a _ e).mpr ⟨he, rfl⟩)).2.symm
  count := UInt64.toNat.inj (h.count.symm.trans h'.count)
  nonces o ho := (h.nonces o ho).symm.trans (h'.nonces o ho)
  spent o m hm := (h.spent o m hm).symm.trans (h'.spent o m hm)

/-- **Only the operations count**: two runs that accept the same operations in the same order leave
    the same entities, however calls batch them and whatever fails or happens elsewhere in
    between. -/
theorem sameEntities_run {steps' : List Chain.Step}
    (hrun : Chain.AllowedRun chainId S.foreign steps)
    (hsound : SoundHistory S (Chain.run steps).history)
    (honly : OnlyEntitiesIn S chainId (Chain.run steps).history)
    (hlt : creates (Chain.run steps).history < 2 ^ 64)
    (hrun' : Chain.AllowedRun chainId S.foreign steps')
    (hsound' : SoundHistory S (Chain.run steps').history)
    (honly' : OnlyEntitiesIn S chainId (Chain.run steps').history)
    (hcalls : (Chain.run steps).history.calls = (Chain.run steps').history.calls) :
    SameEntities S chainId (Chain.run steps).world (Chain.run steps').world := by
  have hcreates : ∀ h : History, creates h = h.calls.countP fun c => c.op.operationType = opCreate :=
    fun h => by rw [History.calls, List.countP_map]; rfl
  have hlt' : creates (Chain.run steps').history < 2 ^ 64 := by
    rwa [hcreates, ← hcalls, ← hcreates]
  obtain ⟨R, hR, hA⟩ := exists_abstracts_run hrun hsound honly hlt
  obtain ⟨R', hR', hA'⟩ := exists_abstracts_run hrun' hsound' honly' hlt'
  rw [← hcalls, hR] at hR'
  obtain rfl := Option.some.inj hR'
  exact hA.sameEntities hA'

end Abstraction

theorem refines_tradeRun : ∃ R,
    Registry.after (Chain.run DevChain.tradeRun).history.calls = some R ∧
    EntriesMatch DevChain.tradeScope devChainId (Chain.run DevChain.tradeRun).world R.entries ∧
    R.count = (entityCount (Chain.run DevChain.tradeRun).world).toNat ∧
    (∀ o, .nonces o ∈ DevChain.tradeScope.slots →
      R.nonces o = readNonce (Chain.run DevChain.tradeRun).world o) ∧
    ∀ o m, .payloadReferenceNonce o m ∈ DevChain.tradeScope.slots →
      R.spent o m = payloadReferenceNonceUsed (Chain.run DevChain.tradeRun).world o m :=
  refines_run DevChain.facts_tradeRun.allowed DevChain.facts_tradeRun.sound
    DevChain.facts_tradeRun.only DevChain.facts_tradeRun.creates

/-- One transaction with both creates, and two with one each. -/
theorem sameEntities_splitRun :
    SameEntities DevChain.tradeScope devChainId (Chain.run DevChain.openRun).world
      (Chain.run DevChain.splitRun).world :=
  sameEntities_run DevChain.facts_openRun.allowed DevChain.facts_openRun.sound
    DevChain.facts_openRun.only DevChain.facts_openRun.creates DevChain.facts_splitRun.allowed
    DevChain.facts_splitRun.sound DevChain.facts_splitRun.only
    (DevChain.openFacts_openRun.calls.trans DevChain.openFacts_splitRun.calls.symm)

end Arkiv
