import Mathlib
import Arkiv.Model.Chain
import Arkiv.Registry.Postings
import Arkiv.Registry.Reference

/-!
# What an accepted operation does

Each of the six operations is taken apart once: the checks it has passed, and
its effect, which is a list of index edits, one code written at its target, a
list of slots and one event. Everything that is proved about runs starts from
these facts.

## Main definitions

- `Effect` — the common shape of the six state changes
- `Scope.SlotsCovered` — the slots an operation touches are in the scope
- `Applied` — the six ways in which an operation is accepted
- `applied_of_opStep` — every accepted operation is one of them
-/

namespace Arkiv

open ByteString

variable [Host]

/-- The ID that the next create gets. -/
def entityCount (w : World) : UInt64 := storageToU64 (w.slot slotEntityCount)

/-- The key that the caller's next create gets. -/
def mintedKey (w : World) (ctx : CallContext) : B256 :=
  deriveEntityKey ctx.chainId ctx.caller (readNonce w ctx.caller)

/-- All annotations of a record. -/
def EntityRlp.annotations (e : EntityRlp) : List Annotation :=
  builtInAnnotations e.creator e.owner e.key e.createdAtBlock e.expiresAt e.contentType ++
    userAnnotations e.attributes

/-- Slots are written one after the other. -/
def writeSlots (f : B256 → B256) (slots : List (SlotName × B256)) : B256 → B256 :=
  slots.foldl (fun f p => Function.update f p.1.slot p.2) f

/-- One operation's change of the world: index edits of the ID `i`, the code of the target, slots
    of the system account and an event. -/
structure Effect (w w' : World) (target : Address) (code : Bytes) (i : UInt64)
    (rem ins : List Annotation) (slots : List (SlotName × B256)) (event : EntityOperation) : Prop where
  edits : ∃ u v, (∀ a, u.code a = w.code a) ∧ Edits u v i rem ins ∧
    ∀ a, w'.code a = if a = target then code else v.code a
  slot : w'.slot = writeSlots w.slot slots
  logs : w'.logs = w.logs ++ [event]
  persists : ∀ a, w.nonce a ≠ 0 → w'.nonce a ≠ 0
  hosted : (∀ p ∈ slots, p.2 = 0) ∨ w'.nonce systemAccountAddress ≠ 0

/-- The slots that an operation reads or writes. -/
structure Scope.SlotsCovered (S : Scope) (w : World) (c : OpCall) : Prop where
  reference : ∀ auth, validatePayloadReference c.op.payload c.ctx.chainId = .ok auth →
    .payloadReferenceNonce c.ctx.caller auth.nonce ∈ S.slots
  nonces : .nonces c.ctx.caller ∈ S.slots
  mint : c.op.operationType = opCreate → .idToAddr (entityCount w) ∈ S.slots ∧
    .addrToId (entityAddress (mintedKey w c.ctx)) ∈ S.slots
  target : c.op.operationType ≠ opCreate →
    .addrToId (entityAddress c.op.entityKey) ∈ S.slots ∧
    .idToAddr (readEntityId w (entityAddress c.op.entityKey)) ∈ S.slots

/-- The record of a new entity. -/
def createdRecord (w : World) (c : OpCall) (attributes : List Attribute)
    (auth : PayloadReferenceAuth) : EntityRlp where
  payload := c.op.payload
  creator := c.ctx.caller
  createdAtBlock := c.ctx.currentBlock
  owner := c.ctx.caller
  expiresAt := satAdd c.ctx.currentBlock c.op.btl.toUInt64
  contentType := auth.contentType
  key := mintedKey w c.ctx
  attributes := attributes
  lastModifiedAtBlock := c.ctx.currentBlock

/-- The record after an update. -/
def updatedRecord (e : EntityRlp) (c : OpCall) (attributes : List Attribute)
    (auth : PayloadReferenceAuth) : EntityRlp :=
  { e with
    payload := c.op.payload
    contentType := auth.contentType
    attributes
    lastModifiedAtBlock := c.ctx.currentBlock }

/-- The record after an extension. -/
def extendedRecord (e : EntityRlp) (c : OpCall) : EntityRlp :=
  { e with
    expiresAt := satAdd c.ctx.currentBlock c.op.btl.toUInt64
    lastModifiedAtBlock := c.ctx.currentBlock }

/-- The record after a transfer. -/
def transferredRecord (e : EntityRlp) (c : OpCall) : EntityRlp :=
  { e with owner := c.op.newOwner, lastModifiedAtBlock := c.ctx.currentBlock }

/-- What a create or update has passed before it reaches the entity database. -/
structure ReferenceAccepted (w : World) (c : OpCall) (attributes : List Attribute)
    (auth : PayloadReferenceAuth) : Prop where
  names : validateAttributeNames c.op.attributes = .ok ()
  convert : convertAttributes c.op.attributes = .ok attributes
  valid : validatePayloadReference c.op.payload c.ctx.chainId = .ok auth
  unused : payloadReferenceNonceUsed w c.ctx.caller auth.nonce = false

/-- The caller owns the record at the target and its time has not passed. -/
structure OwnedBy (w : World) (c : OpCall) (e : EntityRlp) : Prop where
  load : EntityRlp.decodeFromCode (w.code (entityAddress c.op.entityKey)) = .ok e
  owner : e.owner = c.ctx.caller
  alive : c.ctx.currentBlock < e.expiresAt

/-- The postings that an update removes. -/
def droppedAnnotations (e e' : EntityRlp) : List Annotation :=
  (updatableAnnotations e.contentType e.attributes).filter fun a =>
    a ∉ updatableAnnotations e'.contentType e'.attributes

/-- The postings that a deletion under a caller's key removes. -/
def deletedAnnotations (e : EntityRlp) (entityKey : B256) : List Annotation :=
  builtInAnnotations e.creator e.owner entityKey e.createdAtBlock e.expiresAt e.contentType ++
    userAnnotations e.attributes

/-- An accepted operation: what it has checked and what it has changed. -/
inductive Applied (w : World) (c : OpCall) (w' : World) : Prop where
  | create (attributes : List Attribute) (auth : PayloadReferenceAuth)
      (htype : c.op.operationType = opCreate) (hbtl : c.op.btl ≠ 0)
      (href : ReferenceAccepted w c attributes auth)
      (hnonce : (readNonce w c.ctx.caller).toNat + 1 < 2 ^ 32)
      (heffect : Effect w w' (entityAddress (mintedKey w c.ctx))
        (createdRecord w c attributes auth).encodeAsCode (entityCount w) []
        (createdRecord w c attributes auth).annotations
        [(.payloadReferenceNonce c.ctx.caller auth.nonce, 1),
          (.nonces c.ctx.caller, u32ToStorage (readNonce w c.ctx.caller + 1)),
          (.entityCount, u64ToStorage (entityCount w + 1)),
          (.idToAddr (entityCount w), addressToStorage (entityAddress (mintedKey w c.ctx))),
          (.addrToId (entityAddress (mintedKey w c.ctx)), u64ToStorage (entityCount w))]
        ⟨mintedKey w c.ctx, opCreate, c.ctx.caller,
          clipU32 (satAdd c.ctx.currentBlock c.op.btl.toUInt64), 0⟩)
  | update (e : EntityRlp) (attributes : List Attribute) (auth : PayloadReferenceAuth)
      (htype : c.op.operationType = opUpdate) (href : ReferenceAccepted w c attributes auth)
      (howned : OwnedBy w c e)
      (heffect : Effect w w' (entityAddress c.op.entityKey)
        (updatedRecord e c attributes auth).encodeAsCode
        (readEntityId w (entityAddress c.op.entityKey))
        (droppedAnnotations e (updatedRecord e c attributes auth))
        (droppedAnnotations (updatedRecord e c attributes auth) e)
        [(.payloadReferenceNonce c.ctx.caller auth.nonce, 1)]
        ⟨c.op.entityKey, opUpdate, e.owner, clipU32 e.expiresAt, 0⟩)
  | extend (e : EntityRlp) (htype : c.op.operationType = opExtend) (hbtl : c.op.btl ≠ 0)
      (howned : OwnedBy w c e) (hlater : e.expiresAt < (extendedRecord e c).expiresAt)
      (heffect : Effect w w' (entityAddress c.op.entityKey) (extendedRecord e c).encodeAsCode
        (readEntityId w (entityAddress c.op.entityKey))
        [⟨annotExpiration, u64Bytes e.expiresAt, true⟩]
        [⟨annotExpiration, u64Bytes (extendedRecord e c).expiresAt, true⟩] []
        ⟨c.op.entityKey, opExtend, e.owner, clipU32 (extendedRecord e c).expiresAt, 0⟩)
  | transfer (e : EntityRlp) (htype : c.op.operationType = opTransfer) (howned : OwnedBy w c e)
      (hzero : c.op.newOwner ≠ 0) (hself : c.op.newOwner ≠ e.owner)
      (heffect : Effect w w' (entityAddress c.op.entityKey) (transferredRecord e c).encodeAsCode
        (readEntityId w (entityAddress c.op.entityKey))
        [⟨annotOwner, addressBytes e.owner, false⟩]
        [⟨annotOwner, addressBytes c.op.newOwner, false⟩] []
        ⟨c.op.entityKey, opTransfer, c.op.newOwner, clipU32 e.expiresAt, 0⟩)
  | delete (e : EntityRlp) (htype : c.op.operationType = opDelete) (howned : OwnedBy w c e)
      (heffect : Effect w w' (entityAddress c.op.entityKey) []
        (readEntityId w (entityAddress c.op.entityKey)) (deletedAnnotations e c.op.entityKey) []
        [(.idToAddr (readEntityId w (entityAddress c.op.entityKey)), 0),
          (.addrToId (entityAddress c.op.entityKey), 0)]
        ⟨c.op.entityKey, opDelete, e.owner, clipU32 e.expiresAt, 0⟩)
  | expire (e : EntityRlp) (htype : c.op.operationType = opExpire)
      (hload : EntityRlp.decodeFromCode (w.code (entityAddress c.op.entityKey)) = .ok e)
      (hexpired : e.expiresAt ≤ c.ctx.currentBlock)
      (heffect : Effect w w' (entityAddress c.op.entityKey) []
        (readEntityId w (entityAddress c.op.entityKey)) (deletedAnnotations e c.op.entityKey) []
        [(.idToAddr (readEntityId w (entityAddress c.op.entityKey)), 0),
          (.addrToId (entityAddress c.op.entityKey), 0)]
        ⟨c.op.entityKey, opExpire, e.owner, clipU32 e.expiresAt, 0⟩)

omit [Host] in
theorem liftDb_ok {α : Type} {x : Except DbError α} {a : α} : liftDb x = .ok a ↔ x = .ok a := by
  cases x <;> simp [liftDb]

omit [Host] in
theorem readEntity_ok {w : World} {a : Address} {e : EntityRlp} :
    readEntity w a = .ok e ↔ EntityRlp.decodeFromCode (w.code a) = .ok e := by
  simp only [readEntity]
  by_cases hnil : w.code a = []
  · simp [hnil, EntityRlp.decodeFromCode_nil]
  · rw [if_neg hnil]
    cases EntityRlp.decodeFromCode (w.code a) <;> simp

omit [Host] in
theorem loadEntity_some {w : World} {key : B256} {x : ExistingEntity} :
    loadEntity w key = .ok (some x) ↔
      ∃ e, EntityRlp.decodeFromCode (w.code (entityAddress key)) = .ok e ∧
        x = ⟨e.owner, e.expiresAt⟩ := by
  simp only [loadEntity]
  by_cases hnil : w.code (entityAddress key) = []
  · simp [hnil, EntityRlp.decodeFromCode_nil]
  · rw [if_neg hnil]
    cases EntityRlp.decodeFromCode (w.code (entityAddress key)) <;> simp [eq_comm]

omit [Host] in
theorem loadEntityForOwner_ok {w : World} {c : OpCall} {x : ExistingEntity}
    (h : loadEntityForOwner w c.ctx.caller c.ctx.currentBlock c.op.entityKey false = .ok x) :
    ∃ e, OwnedBy w c e ∧ x = ⟨e.owner, e.expiresAt⟩ := by
  unfold loadEntityForOwner at h
  obtain ⟨found, hload, h⟩ := Runs.ok_bind.mp h
  cases found with
  | none => simp at h
  | some x' =>
    obtain ⟨e, he, rfl⟩ := loadEntity_some.mp hload
    simp only [Bool.not_false, Bool.true_and, decide_eq_true_eq] at h
    split at h
    · simp at h
    · next halive =>
      split at h
      · simp at h
      · next howner =>
        refine ⟨e, ⟨he, not_not.mp howner, ?_⟩, ?_⟩
        · exact UInt64.not_le.mp halive
        · simpa [pure, Except.pure] using h.symm

/-- The reference nonce is consumed and nothing else changes. -/
theorem validateRequiredPayloadReference_ok {w w' : World} {ctx : CallContext}
    {payload contentType : Bytes} {auth : PayloadReferenceAuth}
    (h : validateRequiredPayloadReference ctx w payload contentType = .ok (w', auth)) :
    validatePayloadReference payload ctx.chainId = .ok auth ∧
      payloadReferenceNonceUsed w ctx.caller auth.nonce = false ∧
      w' = consumePayloadReferenceNonce w ctx.caller auth.nonce := by
  unfold validateRequiredPayloadReference at h
  obtain ⟨_, -, h⟩ := Runs.ok_bind.mp h
  obtain ⟨auth', hauth, h⟩ := Runs.ok_bind.mp h
  obtain ⟨_, hused, h⟩ := Runs.ok_bind.mp h
  simp only [pure, Except.pure, Except.ok.injEq, Prod.mk.injEq] at h
  obtain ⟨rfl, rfl⟩ := h
  exact ⟨hauth, by simpa using ensure_ok.mp hused, rfl⟩

omit [Host] in
theorem World.Frame.setBalances (A : Set Address) (w : World) (f : Address → ℕ) :
    w.Frame A (w.setBalances f) :=
  ⟨fun _ _ => rfl, fun _ => rfl, rfl, fun _ h => h⟩

omit [Host] in
theorem World.Frame.setBalance (A : Set Address) (w : World) (a : Address) (n : ℕ) :
    w.Frame A (w.setBalance a n) :=
  ⟨fun _ _ => World.code_setBalance _ _ _ _, fun _ => World.slot_setBalance _ _ _ _, rfl,
    fun _ h => World.nonce_ne_zero_modify _ _ _ (fun _ h => h) h⟩

theorem transferProviderAmount_frame {w w' : World} {ctx : CallContext} {provider : Address}
    {amount : ℕ} (h : transferProviderAmount ctx w provider amount = .ok w') : w.Frame ∅ w' := by
  unfold transferProviderAmount at h
  split at h
  · split at h
    · cases h
      exact World.Frame.setBalances _ _ _
    · cases h
  · cases h
    exact World.Frame.refl _ _

omit [Host] in
theorem burnPayment_frame {w w' : World} {ctx : CallContext} {payment burn : ℕ}
    (h : burnPayment ctx w payment burn = .ok w') : w.Frame ∅ w' := by
  unfold burnPayment at h
  dsimp only at h
  split at h
  · split at h
    · cases h
      exact World.Frame.setBalance _ _ _ _
    · cases h
  · cases h
    exact World.Frame.refl _ _

/-- A payment moves balances only. -/
theorem applyPayloadProviderPayment_frame {w w' : World} {ctx : CallContext}
    {auth : PayloadReferenceAuth} (h : applyPayloadProviderPayment ctx w auth = .ok w') :
    w.Frame ∅ w' := by
  unfold applyPayloadProviderPayment at h
  dsimp only at h
  split at h
  · cases h
    exact World.Frame.refl _ _
  obtain ⟨_, -, h⟩ := Runs.ok_bind.mp h
  obtain ⟨_, -, h⟩ := Runs.ok_bind.mp h
  obtain ⟨_, -, h⟩ := Runs.ok_bind.mp h
  obtain ⟨w₁, hpaid, h⟩ := Runs.ok_bind.mp h
  exact (transferProviderAmount_frame hpaid).trans (burnPayment_frame h)

/-- The world in which a create or update reaches the entity database: the reference nonce is
    consumed, the payment is made. -/
theorem reference_frame {w w₁ w₂ : World} {ctx : CallContext} {payload contentType : Bytes}
    {auth : PayloadReferenceAuth}
    (href : validateRequiredPayloadReference ctx w payload contentType = .ok (w₁, auth))
    (hpay : applyPayloadProviderPayment ctx w₁ auth = .ok w₂) :
    (∀ a, w₂.code a = w.code a) ∧
      w₂.slot = Function.update w.slot (slotPayloadReferenceNonce ctx.caller auth.nonce) 1 ∧
      w₂.logs = w.logs ∧ (∀ a, w.nonce a ≠ 0 → w₂.nonce a ≠ 0) ∧
      w₂.nonce systemAccountAddress ≠ 0 := by
  obtain ⟨-, -, rfl⟩ := validateRequiredPayloadReference_ok href
  have hf := applyPayloadProviderPayment_frame hpay
  refine ⟨fun a => ?_, ?_, ?_, fun a ha => ?_, ?_⟩
  · rw [hf.code a (by simp), consumePayloadReferenceNonce]
    simp
  · funext s
    rw [hf.slot s, consumePayloadReferenceNonce, World.slot_setSlot, Function.update_apply]
    simp
  · rw [hf.logs, consumePayloadReferenceNonce]
    simp
  · refine hf.persists a ?_
    simpa [consumePayloadReferenceNonce] using World.nonce_ensureAccountPersists w _ _ ha
  · refine hf.persists _ ?_
    simp [consumePayloadReferenceNonce]

theorem bumpNonce_ok {w w' : World} {caller : Address} {n : UInt32}
    (h : bumpNonce w caller = .ok (w', n)) :
    n = readNonce w caller ∧ n.toNat + 1 < 2 ^ 32 ∧
      w' = (w.ensureAccountPersists systemAccountAddress).setSlot (slotNonces caller)
        (u32ToStorage (n + 1)) := by
  simp only [bumpNonce, World.slot_ensureAccountPersists] at h
  split at h
  · next hlt =>
    simp only [Except.ok.injEq, Prod.mk.injEq] at h
    obtain ⟨rfl, rfl⟩ := h
    exact ⟨rfl, hlt, rfl⟩
  · cases h

/-- The last steps of every handler: the edits, the code of the target, the slots. -/
theorem effect_of_edits {w u v : World} {target : Address} {code : Bytes} {i : UInt64}
    {rem ins : List Annotation} {slots : List (SlotName × B256)} {event : EntityOperation} {w' : World}
    (hcode : ∀ a, u.code a = w.code a) (hedits : Edits u v i rem ins)
    (hcode' : ∀ a, w'.code a = if a = target then code else v.code a)
    (hslot : w'.slot = writeSlots w.slot slots) (hlogs : u.logs = w.logs)
    (hlogs' : w'.logs = v.logs ++ [event]) (hpers : ∀ a, w.nonce a ≠ 0 → u.nonce a ≠ 0)
    (hpers' : ∀ a, v.nonce a ≠ 0 → w'.nonce a ≠ 0)
    (hhost : (∀ p ∈ slots, p.2 = 0) ∨ u.nonce systemAccountAddress ≠ 0) :
    Effect w w' target code i rem ins slots event where
  edits := ⟨u, v, hcode, hedits, hcode'⟩
  slot := hslot
  logs := by rw [hlogs', hedits.frame.logs, hlogs]
  persists a ha := hpers' a (hedits.frame.persists a (hpers a ha))
  hosted := hhost.imp id fun h => hpers' _ (hedits.frame.persists _ h)

omit [Host] in
theorem nonce_setCode {w : World} {a b : Address} {c : Bytes} (h : w.nonce b ≠ 0) :
    (w.setCode a c).nonce b ≠ 0 :=
  (World.Frame.setCode (Set.mem_univ a) w c).persists b h

/-- On the slots of a scope, writing goes by name. -/
theorem writeSlots_slot {S : Scope} {f : B256 → B256} {slots : List (SlotName × B256)}
    (hslots : ∀ p ∈ slots, p.1 ∈ S.slots) {n : SlotName} (hn : n ∈ S.slots) :
    writeSlots f slots n.slot =
      slots.foldl (fun g p => Function.update g p.1 p.2) (fun m => f m.slot) n := by
  -- Both sides peel off the last write.
  induction slots using List.reverseRecOn with
  | nil => rfl
  | append_singleton slots p ih =>
    have hp : p.1 ∈ S.slots := hslots p (by simp)
    have ih := ih fun q hq => hslots q (by simp [hq])
    simp only [writeSlots, List.foldl_append, List.foldl_cons, List.foldl_nil,
      Function.update_apply] at ih ⊢
    by_cases h : n = p.1
    · simp [h]
    · have hne : n.slot ≠ p.1.slot := fun heq => h (Scope.slot_inj hn hp heq)
      rw [if_neg hne, if_neg h, ih]

theorem create_ok {w w' : World} {sender : Address} {key : B256} {expiresAt block : UInt64}
    {payload contentType : Bytes} {attributes : List Attribute}
    (h : EntityDb.create w sender key expiresAt block payload contentType attributes = .ok w') :
    ∃ m, insertAnnotations
        (((w.setSlot slotEntityCount (u64ToStorage (entityCount w + 1))).setSlot
          (slotIdToAddr (entityCount w)) (addressToStorage (entityAddress key))).setSlot
          (slotAddrToId (entityAddress key)) (u64ToStorage (entityCount w)))
        (entityCount w)
        (EntityRlp.annotations ⟨payload, sender, block, sender, expiresAt, contentType, key,
          attributes, block⟩) = .ok m ∧
      w' = m.setCode (entityAddress key)
        (EntityRlp.encodeAsCode ⟨payload, sender, block, sender, expiresAt, contentType, key,
          attributes, block⟩) := by
  unfold EntityDb.create at h
  obtain ⟨m, hm, h⟩ := Runs.ok_bind.mp h
  cases h
  exact ⟨m, hm, rfl⟩

theorem applied_create {S : Scope} {w w' : World} {c : OpCall} (hS : S.SlotsCovered w c)
    (htype : c.op.operationType = opCreate) (h : applyCreate c.ctx w c.op = .ok w') :
    Applied w c w' := by
  unfold applyCreate at h
  obtain ⟨_, hbtl, h⟩ := Runs.ok_bind.mp h
  obtain ⟨_, hnames, h⟩ := Runs.ok_bind.mp h
  obtain ⟨attributes, hconv, h⟩ := Runs.ok_bind.mp h
  obtain ⟨⟨w₁, auth⟩, href, h⟩ := Runs.ok_bind.mp h
  obtain ⟨w₂, hpay, h⟩ := Runs.ok_bind.mp h
  obtain ⟨hvalid, hunused, -⟩ := validateRequiredPayloadReference_ok href
  obtain ⟨hcode, hslot, hlogs, hpers, hhost⟩ := reference_frame href hpay
  cases hbump : bumpNonce w₂ c.ctx.caller with
  | error e => simp [hbump] at h
  | ok r =>
    obtain ⟨w₃, n⟩ := r
    simp only [hbump] at h
    obtain ⟨w₄, hcreate, h⟩ := Runs.ok_bind.mp h
    cases h
    obtain ⟨rfl, hlt, rfl⟩ := bumpNonce_ok hbump
    -- The reference nonce is a slot of its own, so the counters are those of `w`.
    have hn : readNonce w₂ c.ctx.caller = readNonce w c.ctx.caller := by
      have hne : slotNonces c.ctx.caller ≠ slotPayloadReferenceNonce c.ctx.caller auth.nonce :=
        fun heq => nomatch Scope.slot_inj hS.nonces (hS.reference auth hvalid) heq
      rw [readNonce, hslot, Function.update_of_ne hne, readNonce]
    have hi : entityCount ((w₂.ensureAccountPersists systemAccountAddress).setSlot
        (slotNonces c.ctx.caller) (u32ToStorage (readNonce w₂ c.ctx.caller + 1))) =
        entityCount w := by
      have hne : slotEntityCount ≠ slotPayloadReferenceNonce c.ctx.caller auth.nonce :=
        fun heq => nomatch Scope.slot_inj S.count_mem (hS.reference auth hvalid) heq
      have hne' : slotEntityCount ≠ slotNonces c.ctx.caller :=
        fun heq => nomatch Scope.slot_inj S.count_mem hS.nonces heq
      rw [entityCount, World.slot_setSlot_of_ne _ _ _ _ hne', World.slot_ensureAccountPersists,
        hslot, Function.update_of_ne hne, entityCount]
    obtain ⟨m, hm, rfl⟩ := create_ok (liftDb_ok.mp hcreate)
    rw [hi, hn] at hm
    rw [hn] at hlt ⊢
    refine .create attributes auth htype (by simpa using ensure_ok.mp hbtl)
      ⟨hnames, hconv, hvalid, hunused⟩ hlt ?_
    refine effect_of_edits (fun a => ?_) ⟨_, rfl, hm⟩ (fun a => ?_) ?_ ?_ rfl (fun a ha => ?_)
      (fun a ha => ?_) (.inr ?_)
    · simpa using hcode a
    · rw [emitEntityOp, World.code_log, World.code_setCode]
      rfl
    · funext s
      rw [emitEntityOp, World.slot_log, World.slot_setCode, (insertAnnotations_frame hm).slot]
      simp only [World.slot_setSlot_eq, World.slot_ensureAccountPersists_eq, hslot]
      rfl
    · simpa using hlogs
    · simpa using World.nonce_ensureAccountPersists w₂ _ _ (hpers a ha)
    · exact nonce_setCode ha
    · simp

theorem readEntityId_congr {w w' : World} {a : Address}
    (h : w'.slot (slotAddrToId a) = w.slot (slotAddrToId a)) :
    readEntityId w' a = readEntityId w a := by
  rw [readEntityId, h, readEntityId]

theorem applied_update {S : Scope} {w w' : World} {c : OpCall} (hS : S.SlotsCovered w c)
    (htype : c.op.operationType = opUpdate) (h : applyUpdate c.ctx w c.op = .ok w') :
    Applied w c w' := by
  unfold applyUpdate at h
  obtain ⟨_, hnames, h⟩ := Runs.ok_bind.mp h
  obtain ⟨x, hload, h⟩ := Runs.ok_bind.mp h
  obtain ⟨attributes, hconv, h⟩ := Runs.ok_bind.mp h
  obtain ⟨⟨w₁, auth⟩, href, h⟩ := Runs.ok_bind.mp h
  obtain ⟨w₂, hpay, h⟩ := Runs.ok_bind.mp h
  obtain ⟨w₃, hupdate, h⟩ := Runs.ok_bind.mp h
  cases h
  obtain ⟨e, howned, rfl⟩ := loadEntityForOwner_ok hload
  obtain ⟨hvalid, hunused, -⟩ := validateRequiredPayloadReference_ok href
  obtain ⟨hcode, hslot, hlogs, hpers, hhost⟩ := reference_frame href hpay
  have hid : readEntityId w₂ (entityAddress c.op.entityKey) =
      readEntityId w (entityAddress c.op.entityKey) := by
    have hne : slotAddrToId (entityAddress c.op.entityKey) ≠
        slotPayloadReferenceNonce c.ctx.caller auth.nonce :=
      fun heq => nomatch Scope.slot_inj (hS.target (by rw [htype]; decide)).1
        (hS.reference auth hvalid) heq
    exact readEntityId_congr (by rw [hslot, Function.update_of_ne hne])
  have hupdate := liftDb_ok.mp hupdate
  unfold EntityDb.update at hupdate
  obtain ⟨e', he', hupdate⟩ := Runs.ok_bind.mp hupdate
  obtain ⟨m, hdiff, hupdate⟩ := Runs.ok_bind.mp hupdate
  cases hupdate
  have hee : e' = e := by
    have := readEntity_ok.mp he'
    rw [hcode, howned.load] at this
    exact (Except.ok.inj this).symm
  subst hee
  obtain ⟨m', hrem, hins⟩ := Runs.ok_bind.mp hdiff
  rw [hid] at hrem hins
  refine .update e' attributes auth htype ⟨hnames, hconv, hvalid, hunused⟩ howned ?_
  refine effect_of_edits hcode ⟨m', hrem, hins⟩ (fun a => ?_) ?_ hlogs rfl hpers (fun a ha => ?_)
    (.inr hhost)
  · rw [emitEntityOp, World.code_log, World.code_setCode]
    rfl
  · funext s
    rw [emitEntityOp, World.slot_log, World.slot_setCode, (insertAnnotations_frame hins).slot,
      (removeAnnotations_frame hrem).slot, hslot]
    rfl
  · exact nonce_setCode ha

theorem applied_extend {w w' : World} {c : OpCall} (htype : c.op.operationType = opExtend)
    (h : applyExtend c.ctx w c.op = .ok w') : Applied w c w' := by
  unfold applyExtend at h
  obtain ⟨_, hbtl, h⟩ := Runs.ok_bind.mp h
  obtain ⟨x, hload, h⟩ := Runs.ok_bind.mp h
  obtain ⟨_, hlater, h⟩ := Runs.ok_bind.mp h
  obtain ⟨w₃, hextend, h⟩ := Runs.ok_bind.mp h
  cases h
  obtain ⟨e, howned, rfl⟩ := loadEntityForOwner_ok hload
  have hextend := liftDb_ok.mp hextend
  unfold EntityDb.extend at hextend
  obtain ⟨e', he', hextend⟩ := Runs.ok_bind.mp hextend
  obtain ⟨u, hrem, hextend⟩ := Runs.ok_bind.mp hextend
  obtain ⟨v, hins, hextend⟩ := Runs.ok_bind.mp hextend
  cases hextend
  obtain rfl : e = e' := Except.ok.inj (howned.load.symm.trans (readEntity_ok.mp he'))
  have hedits : Edits w v (readEntityId w (entityAddress c.op.entityKey))
      [⟨annotExpiration, u64Bytes e.expiresAt, true⟩]
      [⟨annotExpiration, u64Bytes (extendedRecord e c).expiresAt, true⟩] :=
    ⟨u, Runs.foldlM_cons_ok.mpr ⟨u, hrem, rfl⟩, Runs.foldlM_cons_ok.mpr ⟨v, hins, rfl⟩⟩
  refine .extend e htype (by simpa using ensure_ok.mp hbtl) howned
    (by simpa [extendedRecord] using ensure_ok.mp hlater) ?_
  refine effect_of_edits (fun _ => rfl) hedits (fun a => ?_) ?_ rfl rfl (fun _ h => h)
    (fun a ha => nonce_setCode ha) (.inl (by simp))
  · rw [emitEntityOp, World.code_log, World.code_setCode]
    rfl
  · funext s
    rw [emitEntityOp, World.slot_log, World.slot_setCode, hedits.frame.slot]
    rfl

theorem applied_transfer {w w' : World} {c : OpCall} (htype : c.op.operationType = opTransfer)
    (h : applyTransfer c.ctx w c.op = .ok w') : Applied w c w' := by
  unfold applyTransfer at h
  obtain ⟨x, hload, h⟩ := Runs.ok_bind.mp h
  obtain ⟨_, hzero, h⟩ := Runs.ok_bind.mp h
  obtain ⟨_, hself, h⟩ := Runs.ok_bind.mp h
  obtain ⟨w₃, htransfer, h⟩ := Runs.ok_bind.mp h
  cases h
  obtain ⟨e, howned, rfl⟩ := loadEntityForOwner_ok hload
  have htransfer := liftDb_ok.mp htransfer
  unfold EntityDb.transfer at htransfer
  obtain ⟨e', he', htransfer⟩ := Runs.ok_bind.mp htransfer
  obtain ⟨u, hrem, htransfer⟩ := Runs.ok_bind.mp htransfer
  obtain ⟨v, hins, htransfer⟩ := Runs.ok_bind.mp htransfer
  cases htransfer
  obtain rfl : e = e' := Except.ok.inj (howned.load.symm.trans (readEntity_ok.mp he'))
  have hedits : Edits w v (readEntityId w (entityAddress c.op.entityKey))
      [⟨annotOwner, addressBytes e.owner, false⟩]
      [⟨annotOwner, addressBytes c.op.newOwner, false⟩] :=
    ⟨u, Runs.foldlM_cons_ok.mpr ⟨u, hrem, rfl⟩, Runs.foldlM_cons_ok.mpr ⟨v, hins, rfl⟩⟩
  refine .transfer e htype howned (by simpa using ensure_ok.mp hzero)
    (by simpa using ensure_ok.mp hself) ?_
  refine effect_of_edits (fun _ => rfl) hedits (fun a => ?_) ?_ rfl rfl (fun _ h => h)
    (fun a ha => nonce_setCode ha) (.inl (by simp))
  · rw [emitEntityOp, World.code_log, World.code_setCode]
    rfl
  · funext s
    rw [emitEntityOp, World.slot_log, World.slot_setCode, hedits.frame.slot]
    rfl

/-- The deletion that `delete` and `expire` share. -/
theorem delete_effect {w w' : World} {c : OpCall} {e : EntityRlp} (opType : UInt8)
    (hload : EntityRlp.decodeFromCode (w.code (entityAddress c.op.entityKey)) = .ok e)
    (h : EntityDb.delete w c.op.entityKey = .ok w') :
    Effect w (emitEntityOp w' c.op.entityKey opType e.owner e.expiresAt)
      (entityAddress c.op.entityKey) [] (readEntityId w (entityAddress c.op.entityKey))
      (deletedAnnotations e c.op.entityKey) []
      [(.idToAddr (readEntityId w (entityAddress c.op.entityKey)), 0),
        (.addrToId (entityAddress c.op.entityKey), 0)]
      ⟨c.op.entityKey, opType, e.owner, clipU32 e.expiresAt, 0⟩ := by
  unfold EntityDb.delete at h
  obtain ⟨e', he', h⟩ := Runs.ok_bind.mp h
  obtain ⟨v, hrem, h⟩ := Runs.ok_bind.mp h
  cases h
  obtain rfl : e = e' := Except.ok.inj (hload.symm.trans (readEntity_ok.mp he'))
  have hedits : Edits w v (readEntityId w (entityAddress c.op.entityKey))
      (deletedAnnotations e c.op.entityKey) [] := ⟨v, hrem, rfl⟩
  refine effect_of_edits (fun _ => rfl) hedits (fun a => ?_) ?_ rfl rfl (fun _ h => h)
    (fun a ha => ?_) (.inl (by simp))
  · rw [emitEntityOp, World.code_log, World.tombstoneCode, World.code_setCode, World.code_setSlot,
      World.code_setSlot]
  · funext s
    rw [emitEntityOp, World.slot_log, World.tombstoneCode, World.slot_setCode,
      World.slot_setSlot_eq, World.slot_setSlot_eq, funext hedits.frame.slot]
    rfl
  · rw [emitEntityOp, World.nonce_log]
    exact nonce_setCode (by simpa using ha)

theorem applied_delete {w w' : World} {c : OpCall} (htype : c.op.operationType = opDelete)
    (h : applyDelete c.ctx w c.op = .ok w') : Applied w c w' := by
  unfold applyDelete at h
  obtain ⟨x, hload, h⟩ := Runs.ok_bind.mp h
  obtain ⟨w₃, hdelete, h⟩ := Runs.ok_bind.mp h
  cases h
  obtain ⟨e, howned, rfl⟩ := loadEntityForOwner_ok hload
  exact .delete e htype howned (delete_effect opDelete howned.load (liftDb_ok.mp hdelete))

theorem applied_expire {w w' : World} {c : OpCall} (htype : c.op.operationType = opExpire)
    (h : applyExpire c.ctx w c.op = .ok w') : Applied w c w' := by
  unfold applyExpire at h
  obtain ⟨found, hload, h⟩ := Runs.ok_bind.mp h
  cases found with
  | none => simp at h
  | some x =>
    obtain ⟨_, hexp, h⟩ := Runs.ok_bind.mp h
    obtain ⟨w₃, hexpire, h⟩ := Runs.ok_bind.mp h
    cases h
    obtain ⟨e, he, rfl⟩ := loadEntity_some.mp hload
    exact .expire e htype he (by simpa using ensure_ok.mp hexp)
      (delete_effect opExpire he (liftDb_ok.mp hexpire))

/-- **Inversion**: an accepted operation is one of the six, with its checks passed and its
    effect. -/
theorem applied_of_opStep {S : Scope} {w w' : World} {c : OpCall} (hS : S.SlotsCovered w c)
    (h : opStep w c = .ok w') : Applied w c w' := by
  unfold opStep applyOp at h
  split at h
  · next ht => exact applied_create hS ht h
  split at h
  · next ht => exact applied_update hS ht h
  split at h
  · next ht => exact applied_extend ht h
  split at h
  · next ht => exact applied_transfer ht h
  split at h
  · next ht => exact applied_delete ht h
  split at h
  · next ht => exact applied_expire ht h
  · cases h

end Arkiv
