import Mathlib
import Arkiv.DevChain.Host
import Arkiv.Registry.Support

/-!
# Checking a run of the development chain

Whether the accepted operations of a run stay inside a scope, whether only
entities look like entities and what the records carry is computed from finite
lists of keys, annotations, slots and addresses.

## Main definitions

- `postings` — the annotations that an operation newly posts, as a list
- `runCheck`, `recordsCheck` — the computed checks
- `sound_of_runCheck`, `onlyEntities_of_runCheck`, `records_of_check` — what they establish
- `tradeRun` — two entities that are created, transferred, updated, extended and expired
- `RunFacts` — what the checks say of a run
-/

namespace Arkiv.DevChain

open ByteString

/-- The annotations of `Posts`. -/
def postings (w : World) (c : OpCall) : List Annotation :=
  if c.op.operationType = opCreate then
    match convertAttributes c.op.attributes,
        validatePayloadReference c.op.payload c.ctx.chainId with
    | .ok attributes, .ok auth => (createdRecord w c attributes auth).annotations
    | _, _ => []
  else if c.op.operationType = opUpdate then
    match convertAttributes c.op.attributes,
        validatePayloadReference c.op.payload c.ctx.chainId with
    | .ok attributes, .ok auth => updatableAnnotations auth.contentType attributes
    | _, _ => []
  else if c.op.operationType = opExtend then
    [⟨annotExpiration, u64Bytes (satAdd c.ctx.currentBlock c.op.btl.toUInt64), true⟩]
  else if c.op.operationType = opTransfer then [⟨annotOwner, addressBytes c.op.newOwner, false⟩]
  else [⟨annotKey, b256Bytes c.op.entityKey, false⟩]

theorem mem_postings {w : World} {c : OpCall} {x : Annotation} (h : Posts w c x) :
    x ∈ postings w c := by
  cases h with
  | create htype hconv hauth hx =>
    rw [postings, if_pos htype, hconv, hauth]
    exact hx
  | update htype hconv hauth hx =>
    rw [postings, if_neg (by rw [htype]; decide), if_pos htype, hconv, hauth]
    exact hx
  | extend htype =>
    rw [postings, if_neg (by rw [htype]; decide), if_neg (by rw [htype]; decide), if_pos htype]
    exact List.mem_singleton_self _
  | transfer htype =>
    rw [postings, if_neg (by rw [htype]; decide), if_neg (by rw [htype]; decide),
      if_neg (by rw [htype]; decide), if_pos htype]
    exact List.mem_singleton_self _
  | remove htype =>
    have hne : ∀ k : UInt8, k ≠ opDelete → k ≠ opExpire → c.op.operationType ≠ k := by
      rintro k hd he heq
      rcases htype with ht | ht
      · exact hd (heq.symm.trans ht)
      · exact he (heq.symm.trans ht)
    rw [postings, if_neg (hne _ (by decide) (by decide)), if_neg (hne _ (by decide) (by decide)),
      if_neg (hne _ (by decide) (by decide)), if_neg (hne _ (by decide) (by decide))]
    exact List.mem_singleton_self _

/-- Both accounts of every annotation are listed. -/
def listed (accounts : List Bytes) (as : List Annotation) : Bool :=
  as.all fun x => decide (pairPreimage x.key x.value ∈ accounts ∧ indexPreimage x.key ∈ accounts)

def slotsCheck (slots : List SlotName) (w : World) (c : OpCall) : Bool :=
  (match validatePayloadReference c.op.payload c.ctx.chainId with
    | .ok auth => decide (.payloadReferenceNonce c.ctx.caller auth.nonce ∈ slots)
    | .error _ => true) &&
  decide (.nonces c.ctx.caller ∈ slots) &&
  if c.op.operationType = opCreate then
    decide (.idToAddr (entityCount w) ∈ slots ∧
      .addrToId (entityAddress (mintedKey w c.ctx)) ∈ slots)
  else
    decide (.addrToId (entityAddress c.op.entityKey) ∈ slots ∧
      .idToAddr (readEntityId w (entityAddress c.op.entityKey)) ∈ slots)

def accountsCheck (accounts : List Bytes) (w : World) (c : OpCall) : Bool :=
  listed accounts (postings w c) &&
  if c.op.operationType = opCreate then
    decide (entityKeyPreimage c.ctx.chainId c.ctx.caller (readNonce w c.ctx.caller) ∈ accounts)
  else
    match EntityRlp.decodeFromCode (w.code (entityAddress c.op.entityKey)) with
    | .ok e => listed accounts e.annotations
    | .error _ => true

/-- None of the addresses holds code that decodes as an entity. -/
def onlyCheck (others : List Address) (w : World) : Bool :=
  others.all fun a =>
    match EntityRlp.decodeFromCode (w.code a) with
    | .ok _ => false
    | .error _ => true

variable {S : Scope} {accounts : List Bytes} {slots : List SlotName} {others : List Address}
  {w w' : World} {c : OpCall}

theorem slotsCovered_of_check (hslots : ∀ n ∈ slots, n ∈ S.slots)
    (h : slotsCheck slots w c = true) : S.SlotsCovered w c := by
  simp only [slotsCheck, Bool.and_eq_true] at h
  obtain ⟨⟨href, hnonces⟩, hids⟩ := h
  refine ⟨fun auth hauth => ?_, hslots _ (of_decide_eq_true hnonces), fun htype => ?_,
    fun htype => ?_⟩
  · rw [hauth] at href
    exact hslots _ (of_decide_eq_true href)
  · rw [if_pos htype] at hids
    obtain ⟨hid, haddr⟩ := of_decide_eq_true hids
    exact ⟨hslots _ hid, hslots _ haddr⟩
  · rw [if_neg htype] at hids
    obtain ⟨haddr, hid⟩ := of_decide_eq_true hids
    exact ⟨hslots _ haddr, hslots _ hid⟩

theorem hasAccounts_of_listed (haccounts : ∀ p ∈ accounts, p ∈ S.accounts) {as : List Annotation}
    (h : listed accounts as = true) : S.HasAccounts as := by
  intro x hx
  obtain ⟨hpair, hindex⟩ := of_decide_eq_true (List.all_eq_true.mp h x hx)
  exact ⟨haccounts _ hpair, haccounts _ hindex⟩

theorem accountsCovered_of_check (haccounts : ∀ p ∈ accounts, p ∈ S.accounts)
    (h : accountsCheck accounts w c = true) : S.AccountsCovered w c := by
  simp only [accountsCheck, Bool.and_eq_true] at h
  obtain ⟨hposts, hrecord⟩ := h
  refine ⟨fun htype => ?_, fun htype e he => ?_, fun x hx =>
    hasAccounts_of_listed haccounts hposts x (mem_postings hx)⟩
  · rw [if_pos htype] at hrecord
    exact haccounts _ (of_decide_eq_true hrecord)
  · rw [if_neg htype, he] at hrecord
    exact hasAccounts_of_listed haccounts hrecord

theorem onlyEntities_of_check {chainId : UInt64}
    (hothers : ∀ a, S.Contains a → S.EntityAt chainId a ∨ a ∈ others) (hw : w.SupportedOn S)
    (h : onlyCheck others w = true) : OnlyEntities S chainId w := by
  intro a e he
  rcases hothers a (hw a fun hnil => not_liveAt_of_nil hnil e he) with ha | ha
  · exact ha
  · have hno := List.all_eq_true.mp h a ha
    rw [he] at hno
    exact absurd hno (by simp)

/-- All checks on the history of a run. -/
def runCheck (accounts : List Bytes) (slots : List SlotName) (others : List Address)
    (h : History) : Bool :=
  h.all fun x => slotsCheck slots x.pre x.label && accountsCheck accounts x.pre x.label &&
    onlyCheck others x.pre

variable {h : History}

theorem sound_of_runCheck (haccounts : ∀ p ∈ accounts, p ∈ S.accounts)
    (hslots : ∀ n ∈ slots, n ∈ S.slots) (hcheck : runCheck accounts slots others h = true) :
    SoundHistory S h := by
  intro x hx
  have hall := List.all_eq_true.mp hcheck x hx
  simp only [Bool.and_eq_true] at hall
  exact ⟨slotsCovered_of_check hslots hall.1.1, accountsCovered_of_check haccounts hall.1.2⟩

theorem onlyEntities_of_runCheck {chainId : UInt64}
    (hothers : ∀ a, S.Contains a → S.EntityAt chainId a ∨ a ∈ others)
    (hsupport : ∀ x ∈ h, x.pre.SupportedOn S)
    (hcheck : runCheck accounts slots others h = true) : OnlyEntitiesIn S chainId h := by
  intro x hx
  have hall := List.all_eq_true.mp hcheck x hx
  simp only [Bool.and_eq_true] at hall
  exact onlyEntities_of_check hothers (hsupport x hx) hall.2

/-- Preimages of entity keys, and of the accounts of annotations. -/
def preimages (keys : List (Address × UInt32)) (annotations : List Annotation) : List Bytes :=
  keys.map (fun k => entityKeyPreimage devChainId k.1 k.2) ++
    annotations.flatMap fun x => [pairPreimage x.key x.value, indexPreimage x.key]

/-- The addresses of a finite scope that are no entity addresses. -/
def otherAddresses (annotations : List Annotation) (foreign : List Address) : List Address :=
  (annotations.flatMap fun x => [pairAddress x.key x.value, indexAddress x.key]) ++ foreign

/-- In a scope of listed names every address is that of a listed key, or one of the others. -/
theorem contains_of_preimages {keys : List (Address × UInt32)} {annotations : List Annotation}
    {foreign : List Address} (haccounts : ∀ p ∈ S.accounts, p ∈ preimages keys annotations)
    (hforeign : ∀ a ∈ S.foreign, a ∈ foreign)
    (hkeys : ∀ k ∈ keys, entityKeyPreimage devChainId k.1 k.2 ∈ S.accounts) (a : Address)
    (ha : S.Contains a) : S.EntityAt devChainId a ∨ a ∈ otherAddresses annotations foreign := by
  rcases ha with ⟨p, hp, rfl⟩ | ha
  · rcases List.mem_append.mp (haccounts p hp) with hp | hp
    · obtain ⟨k, hk, rfl⟩ := List.mem_map.mp hp
      exact .inl ⟨k.1, k.2, hkeys k hk, rfl⟩
    · obtain ⟨x, hx, hp⟩ := List.mem_flatMap.mp hp
      refine .inr (List.mem_append_left _ (List.mem_flatMap.mpr ⟨x, hx, ?_⟩))
      rcases List.mem_cons.mp hp with rfl | hp
      · exact List.mem_cons_self
      · rw [List.mem_singleton.mp hp]
        exact List.mem_cons_of_mem _ List.mem_cons_self
  · exact .inr (List.mem_append_right _ (hforeign a ha))

/-- Entity addresses of a scope of listed names are those of its listed keys. -/
theorem entityAt_of_preimages {keys : List (Address × UInt32)} {annotations : List Annotation}
    (haccounts : ∀ p ∈ S.accounts, p ∈ preimages keys annotations) {a : Address}
    (ha : S.EntityAt devChainId a) :
    ∃ k ∈ keys, a = entityAddress (deriveEntityKey devChainId k.1 k.2) := by
  obtain ⟨owner, nonce, hp, rfl⟩ := ha
  rcases List.mem_append.mp (haccounts _ hp) with hp | hp
  · obtain ⟨k, hk, heq⟩ := List.mem_map.mp hp
    obtain ⟨howner, hnonce⟩ := entityKeyPreimage_inj heq
    exact ⟨k, hk, by rw [howner, hnonce]⟩
  · obtain ⟨x, -, hp⟩ := List.mem_flatMap.mp hp
    rcases List.mem_cons.mp hp with heq | hp
    · exact absurd heq (entityKeyPreimage_ne_pairPreimage _ _ _ _ _)
    · exact absurd (List.mem_singleton.mp hp) (entityKeyPreimage_ne_indexPreimage _ _ _ _)

/-- The account of a listed key. -/
def keyAddress (k : Address × UInt32) : Address :=
  entityAddress (deriveEntityKey devChainId k.1 k.2)

/-- The records at the listed keys carry listed annotations and expire below `2 ^ 32`. -/
def recordsCheck (keys : List (Address × UInt32)) (annotations : List Annotation) (w : World) :
    Bool :=
  keys.all fun k =>
    match EntityRlp.decodeFromCode (w.code (keyAddress k)) with
    | .ok e => (e.annotations.all fun a => decide (a ∈ annotations)) &&
        decide (e.expiresAt.toNat < 2 ^ 32)
    | .error _ => true

theorem records_of_check {keys : List (Address × UInt32)} {annotations : List Annotation}
    (haccounts : ∀ p ∈ S.accounts, p ∈ preimages keys annotations)
    (h : recordsCheck keys annotations w = true) {a : Address} {e : EntityRlp}
    (he : Live S devChainId w a e) :
    (∀ x ∈ e.annotations, x ∈ annotations) ∧ e.expiresAt.toNat < 2 ^ 32 := by
  obtain ⟨k, hk, rfl⟩ := entityAt_of_preimages haccounts he.1
  have hall := List.all_eq_true.mp h k hk
  rw [keyAddress, show EntityRlp.decodeFromCode _ = .ok e from he.2] at hall
  simp only [Bool.and_eq_true, List.all_eq_true, decide_eq_true_eq] at hall
  exact hall

/-- The operation names the key of the record that it loads. -/
def namesCheck (x : OpTransition) : Bool :=
  decide x.IsCreate ||
    match EntityRlp.decodeFromCode (x.pre.code (entityAddress x.label.op.entityKey)) with
    | .ok e => decide (x.label.op.entityKey = e.key)
    | .error _ => true

theorem names_of_check {x : OpTransition} (h : namesCheck x = true) (hx : ¬x.IsCreate)
    {e : EntityRlp} (he : LiveAt x.pre x.target e) : x.label.op.entityKey = e.key := by
  rw [OpTransition.target_of_not hx] at he
  rw [namesCheck, show EntityRlp.decodeFromCode _ = .ok e from he, decide_eq_false hx,
    Bool.false_or] at h
  exact of_decide_eq_true h

section Trade

/-- The payloads of the development chain are short. -/
theorem referenceToVec_length : ∀ r ∈ signedReceipts,
    (referenceToVec (reference r)).length < 2 ^ 61 := by decide +kernel

theorem paid_of_length {payload : Bytes} (h : payload.length < 2 ^ 61) (a : AbiAttribute) :
    payload.length + 192 * [a].length < 2 ^ 62 := by
  rw [List.length_singleton]
  omega

/-- A create under the first receipt with the number 42 under `score`. -/
def createOp : Operation where
  operationType := opCreate
  entityKey := 0
  payload := referenceToVec (reference firstReceipt)
  contentType := wordsOf payloadReferenceContentType
  attributes := [⟨identOf "score", attrUint, oneWord 42⟩]
  btl := 100
  newOwner := 0
  paid := paid_of_length (referenceToVec_length firstReceipt List.mem_cons_self) _

/-- A create under the second receipt with another score and a short life. -/
def secondOp : Operation where
  operationType := opCreate
  entityKey := 0
  payload := referenceToVec (reference secondReceipt)
  contentType := wordsOf payloadReferenceContentType
  attributes := [⟨identOf "score", attrUint, oneWord 7⟩]
  btl := 10
  newOwner := 0
  paid := paid_of_length (referenceToVec_length secondReceipt (by simp [signedReceipts])) _

def createKey : B256 := deriveEntityKey devChainId devCaller 0

def secondKey : B256 := deriveEntityKey devChainId devCaller 1

/-- What the first receipt is accepted as. -/
def createAuth : PayloadReferenceAuth := ⟨1, ascii "text/plain", 100000, devSigner⟩

theorem auth_createOp :
    validatePayloadReference createOp.payload devChainId = .ok createAuth := by
  decide +kernel

/-- An operation without a payload and attributes. -/
def plainOp (operationType : UInt8) (entityKey : B256) (btl : UInt32) (newOwner : Address) :
    Operation where
  operationType := operationType
  entityKey := entityKey
  payload := []
  contentType := noWords
  attributes := []
  btl := btl
  newOwner := newOwner
  paid := nothing_paid

def transferOp : Operation := plainOp opTransfer createKey 0 devBuyer

/-- The buyer updates the first entity; nobody has spent the first receipt on its behalf. -/
def updateOp : Operation where
  operationType := opUpdate
  entityKey := createKey
  payload := referenceToVec (reference firstReceipt)
  contentType := wordsOf payloadReferenceContentType
  attributes := [⟨identOf "score", attrUint, oneWord 43⟩]
  btl := 0
  newOwner := 0
  paid := paid_of_length (referenceToVec_length firstReceipt List.mem_cons_self) _

def extendOp : Operation := plainOp opExtend createKey 200 0

def expireOp : Operation := plainOp opExpire secondKey 0 0

/-- Two creates in one batch. -/
def openRun : List Chain.Step :=
  [.call (callOf devCaller 5 [createOp, secondOp]), .endOfTransaction]

def tradeRest : List Chain.Step :=
  [.call (callOf devCaller 6 [transferOp]), .call (callOf devBuyer 7 [updateOp, extendOp]),
    .endOfTransaction, .call (callOf devBuyer 20 [expireOp]), .endOfTransaction]

/-- The first entity is sold, and the second one expires. -/
def tradeRun : List Chain.Step := openRun ++ tradeRest

/-- The same creates in two transactions. -/
def splitRun : List Chain.Step :=
  [.call (callOf devCaller 5 [createOp]), .endOfTransaction, .call (callOf devCaller 5 [secondOp])]

/-- The states after these runs. -/
def openState : ChainState :=
  Chain.step (batch Chain.genesis devCaller 5 [createOp, secondOp]) .endOfTransaction

def tradeState : ChainState :=
  let sold := batch openState devCaller 6 [transferOp]
  let changed := Chain.step (batch sold devBuyer 7 [updateOp, extendOp]) .endOfTransaction
  Chain.step (batch changed devBuyer 20 [expireOp]) .endOfTransaction

def splitState : ChainState :=
  let first := Chain.step (batch Chain.genesis devCaller 5 [createOp]) .endOfTransaction
  batch first devCaller 5 [secondOp]

theorem run_openRun : Chain.run openRun = openState := by
  rw [openRun, Chain.run, List.foldl_cons, step_callOf _ (by simp)]
  rfl

theorem run_tradeRun : Chain.run tradeRun = tradeState := by
  have hone : ∀ op : Operation, [op].length < 2 ^ 64 := by simp
  have htwo : [updateOp, extendOp].length < 2 ^ 64 := by simp
  rw [tradeRun, Chain.run_append, run_openRun, tradeRest]
  simp only [List.foldl_cons, List.foldl_nil, step_callOf _ (hone _), step_callOf _ htwo]
  rfl

theorem run_splitRun : Chain.run splitRun = splitState := by
  have hone : ∀ op : Operation, [op].length < 2 ^ 64 := by simp
  simp only [splitRun, Chain.run, List.foldl_cons, List.foldl_nil, step_callOf _ (hone _)]
  rfl

def tradeKeys : List (Address × UInt32) := [(devCaller, 0), (devCaller, 1)]

/-- A number under `score`. -/
def scoreOf (n : ℕ) : Annotation := ⟨ascii "score", be 32 n, true⟩

/-- All that the records of the run carry. -/
def tradeAnnotations : List Annotation :=
  [⟨annotAll, [], false⟩, ⟨annotCreator, addressBytes devCaller, false⟩,
    ⟨annotCreatedAtBlock, u64Bytes 5, true⟩, ⟨annotOwner, addressBytes devCaller, false⟩,
    ⟨annotOwner, addressBytes devBuyer, false⟩, ⟨annotKey, b256Bytes createKey, false⟩,
    ⟨annotKey, b256Bytes secondKey, false⟩, ⟨annotExpiration, u64Bytes 105, true⟩,
    ⟨annotExpiration, u64Bytes 15, true⟩, ⟨annotExpiration, u64Bytes 207, true⟩,
    ⟨annotContentType, ascii "text/plain", true⟩, scoreOf 42, scoreOf 7, scoreOf 43]

def tradeAccounts : List Bytes := (preimages tradeKeys tradeAnnotations).dedup

def tradeSlots : List SlotName :=
  [.entityCount, .idToAddr 0, .idToAddr 1, .addrToId (entityAddress createKey),
    .addrToId (entityAddress secondKey), .nonces devCaller, .nonces devBuyer,
    .payloadReferenceNonce devCaller 1, .payloadReferenceNonce devCaller 2,
    .payloadReferenceNonce devBuyer 1]

def tradeScope : Scope :=
  Scope.ofLists tradeAccounts tradeSlots [] (by decide +kernel) (by decide +kernel)
    (fun _ _ => List.not_mem_nil) system_not_mem_nil List.mem_cons_self

/-- The checks on a history of these operations. -/
def tradeCheck (h : History) : Bool :=
  runCheck tradeAccounts tradeSlots (otherAddresses tradeAnnotations []) h &&
  (h.all fun x => recordsCheck tradeKeys tradeAnnotations x.pre &&
    recordsCheck tradeKeys tradeAnnotations x.post && namesCheck x &&
    (postings x.pre x.label).all fun a => decide (a ∈ tradeAnnotations)) &&
  decide (h.Pairwise fun y z => y.label.ctx.currentBlock ≤ z.label.ctx.currentBlock) &&
  decide (creates h < 2 ^ 64)

/-- A record of the run. -/
def recordOf (op : Operation) (key : B256) (score : ℕ) (expiresAt : UInt64) : EntityRlp where
  payload := op.payload
  creator := devCaller
  createdAtBlock := 5
  owner := devCaller
  expiresAt := expiresAt
  contentType := ascii "text/plain"
  key := key
  attributes := [⟨ascii "score", attrUint, be 32 score⟩]
  lastModifiedAtBlock := 5

def firstEntity : EntityRlp := recordOf createOp createKey 42 105

def secondEntity : EntityRlp := recordOf secondOp secondKey 7 15

/-- The first entity after the sale. -/
def soldEntity : EntityRlp :=
  { recordOf updateOp createKey 43 207 with owner := devBuyer, lastModifiedAtBlock := 7 }

/-- The code decodes as the record. -/
def holdsRecord (w : World) (a : Address) (e : EntityRlp) : Bool :=
  match EntityRlp.decodeFromCode (w.code a) with
  | .ok f => decide (f = e)
  | .error _ => false

theorem liveAt_of_holdsRecord {w : World} {a : Address} {e : EntityRlp}
    (h : holdsRecord w a e = true) : LiveAt w a e := by
  rw [holdsRecord] at h
  split at h
  · next f hf =>
    rw [of_decide_eq_true h] at hf
    exact hf
  · cases h

/-- Both entities are there. -/
def openCheck (s : ChainState) : Bool :=
  decide (s.history.map (fun x => x.label) =
    [⟨contextOf devCaller 5, createOp⟩, ⟨contextOf devCaller 5, secondOp⟩]) &&
  holdsRecord s.world (entityAddress createKey) firstEntity &&
  holdsRecord s.world (entityAddress secondKey) secondEntity &&
  decide (readEntityId s.world (entityAddress createKey) = 0)

theorem checks_tradeState : (tradeCheck tradeState.history && openCheck openState &&
    holdsRecord tradeState.world (entityAddress createKey) soldEntity &&
    decide (readEntityId tradeState.world (entityAddress createKey) = 0) &&
    decide (readPairBitmap tradeState.world annotAll [] = .ok ⟨{0}⟩) &&
    decide (resolveId tradeState.world 0 = .ok (some soldEntity))) = true := by decide +kernel

theorem checks_splitState : (tradeCheck splitState.history && openCheck splitState) = true := by
  decide +kernel

/-- What the checks say of a run. -/
structure RunFacts (steps : List Chain.Step) : Prop where
  allowed : Chain.AllowedRun devChainId tradeScope.foreign steps
  sound : SoundHistory tradeScope (Chain.run steps).history
  only : OnlyEntitiesIn tradeScope devChainId (Chain.run steps).history
  creates : creates (Chain.run steps).history < 2 ^ 64
  blocks : (Chain.run steps).history.Pairwise fun y z =>
    y.label.ctx.currentBlock ≤ z.label.ctx.currentBlock
  names : ∀ x ∈ (Chain.run steps).history, ¬x.IsCreate → ∀ e, LiveAt x.pre x.target e →
    x.label.op.entityKey = e.key
  posts : ∀ x ∈ (Chain.run steps).history, ∀ a, Posts x.pre x.label a → a ∈ tradeAnnotations
  records : ∀ x ∈ (Chain.run steps).history, ∀ a e,
    Live tradeScope devChainId x.pre a e ∨ Live tradeScope devChainId x.post a e →
    (∀ y ∈ e.annotations, y ∈ tradeAnnotations) ∧ e.expiresAt.toNat < 2 ^ 32

theorem mem_tradeAccounts {p : Bytes} :
    p ∈ tradeScope.accounts ↔ p ∈ preimages tradeKeys tradeAnnotations := List.mem_dedup

/-- An address in the scope is one of an entity, or one of the accounts of the index. -/
theorem contains_tradeScope (a : Address) (ha : tradeScope.Contains a) :
    tradeScope.EntityAt devChainId a ∨ a ∈ otherAddresses tradeAnnotations [] := by
  refine contains_of_preimages (fun p hp => mem_tradeAccounts.mp hp) (fun a ha => ha)
    (fun k hk => mem_tradeAccounts.mpr ?_) a ha
  exact List.mem_append_left _ (List.mem_map.mpr ⟨k, hk, rfl⟩)

theorem runFacts_of_check {steps : List Chain.Step}
    (hallowed : Chain.AllowedRun devChainId tradeScope.foreign steps)
    (hcheck : tradeCheck (Chain.run steps).history = true) : RunFacts steps := by
  simp only [tradeCheck, Bool.and_eq_true, decide_eq_true_eq, List.all_eq_true] at hcheck
  obtain ⟨⟨⟨hrun, hsteps⟩, hblocks⟩, hcreates⟩ := hcheck
  have haccounts : ∀ p ∈ tradeScope.accounts, p ∈ preimages tradeKeys tradeAnnotations :=
    fun p hp => mem_tradeAccounts.mp hp
  have hsound : SoundHistory tradeScope (Chain.run steps).history :=
    sound_of_runCheck (fun p hp => hp) (fun n hn => hn) hrun
  have hsupport := (supported_run hallowed hsound).2
  have honly := onlyEntities_of_runCheck contains_tradeScope hsupport hrun
  refine ⟨hallowed, hsound, honly, hcreates, hblocks, fun x hx hnc e he => ?_, fun x hx a ha => ?_,
    fun x hx a e he => ?_⟩
  · exact names_of_check (hsteps x hx).1.2 hnc he
  · exact (hsteps x hx).2 a (mem_postings ha)
  · obtain ⟨⟨⟨hpre, hpost⟩, -⟩, -⟩ := hsteps x hx
    rcases he with he | he
    · exact records_of_check haccounts hpre he
    · exact records_of_check haccounts hpost he

/-- The facts hold of the start of a run. -/
theorem RunFacts.before {before rest : List Chain.Step} (h : RunFacts (before ++ rest)) :
    RunFacts before := by
  have hprefix := Chain.history_prefix before rest
  have hmem : ∀ x ∈ (Chain.run before).history, x ∈ (Chain.run (before ++ rest)).history :=
    fun x hx => hprefix.subset hx
  exact
    { allowed := (Runs.guarded_append.mp h.allowed).1
      sound := fun x hx => h.sound x (hmem x hx)
      only := fun x hx => h.only x (hmem x hx)
      creates := hprefix.sublist.countP_le.trans_lt h.creates
      blocks := h.blocks.sublist hprefix.sublist
      names := fun x hx => h.names x (hmem x hx)
      posts := fun x hx => h.posts x (hmem x hx)
      records := fun x hx => h.records x (hmem x hx) }

theorem facts_tradeRun : RunFacts tradeRun := by
  have hchecks := checks_tradeState
  simp only [Bool.and_eq_true, ← run_tradeRun] at hchecks
  exact runFacts_of_check ⟨rfl, trivial, rfl, rfl, trivial, rfl, trivial, trivial⟩ hchecks.1.1.1.1.1

theorem facts_openRun : RunFacts openRun := facts_tradeRun.before

theorem facts_splitRun : RunFacts splitRun := by
  have hchecks := checks_splitState
  simp only [Bool.and_eq_true, ← run_splitRun] at hchecks
  exact runFacts_of_check ⟨rfl, trivial, rfl, trivial⟩ hchecks.1

/-- What is there after the two creates. -/
structure OpenFacts (steps : List Chain.Step) : Prop where
  calls : (Chain.run steps).history.map (fun x => x.label) =
    [⟨contextOf devCaller 5, createOp⟩, ⟨contextOf devCaller 5, secondOp⟩]
  first : Live tradeScope devChainId (Chain.run steps).world (entityAddress createKey) firstEntity
  second : Live tradeScope devChainId (Chain.run steps).world (entityAddress secondKey) secondEntity
  id : readEntityId (Chain.run steps).world (entityAddress createKey) = 0

/-- The listed keys are those of entities in the scope. -/
theorem entityAt_of_key (owner : Address) (nonce : UInt32) (hk : (owner, nonce) ∈ tradeKeys) :
    tradeScope.EntityAt devChainId (entityAddress (deriveEntityKey devChainId owner nonce)) := by
  have hmem : entityKeyPreimage devChainId owner nonce ∈ preimages tradeKeys tradeAnnotations :=
    List.mem_append_left _ (List.mem_map.mpr ⟨(owner, nonce), hk, rfl⟩)
  exact ⟨owner, nonce, mem_tradeAccounts.mpr hmem, rfl⟩

theorem entityAt_createKey : tradeScope.EntityAt devChainId (entityAddress createKey) :=
  entityAt_of_key devCaller 0 List.mem_cons_self

theorem entityAt_secondKey : tradeScope.EntityAt devChainId (entityAddress secondKey) :=
  entityAt_of_key devCaller 1 (List.mem_cons_of_mem _ List.mem_cons_self)

theorem openFacts_of_check {steps : List Chain.Step} (h : openCheck (Chain.run steps) = true) :
    OpenFacts steps := by
  simp only [openCheck, Bool.and_eq_true, decide_eq_true_eq] at h
  obtain ⟨⟨⟨hcalls, hfirst⟩, hsecond⟩, hid⟩ := h
  exact ⟨hcalls, ⟨entityAt_createKey, liveAt_of_holdsRecord hfirst⟩,
    ⟨entityAt_secondKey, liveAt_of_holdsRecord hsecond⟩, hid⟩

theorem openFacts_openRun : OpenFacts openRun := by
  have hchecks := checks_tradeState
  simp only [Bool.and_eq_true, ← run_openRun] at hchecks
  exact openFacts_of_check hchecks.1.1.1.1.2

theorem openFacts_splitRun : OpenFacts splitRun := by
  have hchecks := checks_splitState
  simp only [Bool.and_eq_true, ← run_splitRun] at hchecks
  exact openFacts_of_check hchecks.2

/-- After the sale the first entity is the buyer's. -/
theorem live_tradeRun : Live tradeScope devChainId (Chain.run tradeRun).world
    (entityAddress createKey) soldEntity := by
  have hchecks := checks_tradeState
  simp only [Bool.and_eq_true, ← run_tradeRun] at hchecks
  exact ⟨entityAt_createKey, liveAt_of_holdsRecord hchecks.1.1.1.2⟩

theorem readEntityId_tradeRun :
    readEntityId (Chain.run tradeRun).world (entityAddress createKey) = 0 := by
  have hchecks := checks_tradeState
  simp only [Bool.and_eq_true, decide_eq_true_eq, ← run_tradeRun] at hchecks
  exact hchecks.1.1.2

/-- It is the only one that is left. -/
theorem all_tradeRun : readPairBitmap (Chain.run tradeRun).world annotAll [] = .ok ⟨{0}⟩ ∧
    resolveId (Chain.run tradeRun).world 0 = .ok (some soldEntity) := by
  have hchecks := checks_tradeState
  simp only [Bool.and_eq_true, decide_eq_true_eq, ← run_tradeRun] at hchecks
  exact ⟨hchecks.1.2, hchecks.2⟩

/-- No key and value is carried in two tiers. -/
theorem tiers_tradeAnnotations : ∀ a ∈ tradeAnnotations, ∀ b ∈ tradeAnnotations,
    a.key = b.key → a.value = b.value → a.tier2 = b.tier2 := by decide +kernel

/-- Both accounts of what the records carry are in the scope. -/
theorem covers_tradeScope {a : Annotation} (ha : a ∈ tradeAnnotations) :
    tradeScope.Covers a.key a.value := by
  have hkeys : ∀ a ∈ tradeAnnotations, (0 : UInt8) ∉ a.key := by decide +kernel
  refine ⟨hkeys a ha, mem_tradeAccounts.mpr ?_, mem_tradeAccounts.mpr ?_⟩
  · exact List.mem_append_right _ (List.mem_flatMap.mpr ⟨a, ha, by simp⟩)
  · exact List.mem_append_right _ (List.mem_flatMap.mpr ⟨a, ha, by simp⟩)

end Trade

end Arkiv.DevChain
