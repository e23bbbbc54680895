import Mathlib
import Arkiv.Model.PayloadReference

/-!
# The precompile

The entry point of the chain: call restrictions, selector dispatch, the gas
charge, the validation of each operation and its state change and event.

## Main definitions

- `totalGas`, `opGas` — the charge of a batch
- `convertAttributes`, `validateAttributeNames` — attributes from calldata
- `loadEntity`, `loadEntityForOwner` — the record behind a caller's key
- `applyCreate` … `applyExpire`, `applyOp` — one operation
- `dispatchExecute`, `dispatchNonces`, `arkivPrecompile` — one call
-/

namespace Arkiv

open ByteString

/-- Everything outside the repository that the precompile calls. -/
class Host extends Keccak, RoaringFormat, AbiDecoder, ReceiptCrates, Journal

-- Gas model

def gExecuteBase : UInt64 := 5000
def gNonces : UInt64 := 800
def gCreate : UInt64 := 80000
def gUpdate : UInt64 := 30000
def gExtend : UInt64 := 25000
def gTransfer : UInt64 := 25000
def gDelete : UInt64 := 62000
def gExpire : UInt64 := 62000
def gByte : UInt64 := 16
def gAnnotation : UInt64 := 5000
def gArtIndexedAnnotation : UInt64 := 6000
def gPayloadReferenceVerify : UInt64 := 50000

-- Encoding helpers

/-- Zeros at the end are padding. -/
def stripTrailingZeros (v : Bytes) : Bytes := v.rdropWhile (· == 0)

def wordsBytes (words : Words) : Bytes := words.toList.flatMap b256Bytes

def packBytes324 (words : Words) : Bytes := stripTrailingZeros (wordsBytes words)

def mime128ToBytes (m : Words) : Bytes := packBytes324 m

def ident32ToBytes (name : B256) : Bytes := stripTrailingZeros (b256Bytes name)

/-- How many of the bytes are valid UTF-8 when not all are: `Utf8Error::valid_up_to`. -/
def invalidUtf8At (pos : ℕ) : Bytes → Option ℕ
  | [] => none
  | b₀ :: rest =>
    let cont (b : UInt8) : Bool := 0x80 ≤ b && b ≤ 0xBF
    if b₀ < 0x80 then invalidUtf8At (pos + 1) rest
    else
      match rest with
      | [] => some pos
      | b₁ :: rest =>
        if 0xC2 ≤ b₀ && b₀ ≤ 0xDF then
          if cont b₁ then invalidUtf8At (pos + 2) rest else some pos
        else
          match rest with
          | [] => some pos
          | b₂ :: rest =>
            -- No overlong forms and no surrogates.
            let second : Bool :=
              if b₀ == 0xE0 then 0xA0 ≤ b₁ && b₁ ≤ 0xBF
              else if b₀ == 0xED then 0x80 ≤ b₁ && b₁ ≤ 0x9F
              else 0xE1 ≤ b₀ && b₀ ≤ 0xEF && cont b₁
            if second && cont b₂ then invalidUtf8At (pos + 3) rest
            else
              match rest with
              | [] => some pos
              | b₃ :: rest =>
                let second : Bool :=
                  if b₀ == 0xF0 then 0x90 ≤ b₁ && b₁ ≤ 0xBF
                  else if b₀ == 0xF4 then 0x80 ≤ b₁ && b₁ ≤ 0x8F
                  else 0xF1 ≤ b₀ && b₀ ≤ 0xF3 && cont b₁
                if second && cont b₂ && cont b₃ then invalidUtf8At (pos + 4) rest else some pos

def isTier2Type (valueType : UInt8) : Bool := valueType == attrUint || valueType == attrString

/-- The charge of one operation, a function of its shape. -/
def opGas (op : Operation) : UInt64 :=
  let base :=
    if op.operationType = opCreate then gCreate
    else if op.operationType = opUpdate then gUpdate
    else if op.operationType = opExtend then gExtend
    else if op.operationType = opTransfer then gTransfer
    else if op.operationType = opDelete then gDelete
    else if op.operationType = opExpire then gExpire
    else gCreate
  if op.operationType ≠ opCreate ∧ op.operationType ≠ opUpdate then base
  else
    let payloadBytes := UInt64.ofNat op.payload.length
    let annotationCount := UInt64.ofNat op.attributes.length
    let annotationBytes := satMul annotationCount (32 + 128)
    let indexedCount := UInt64.ofNat (op.attributes.countP fun a => isTier2Type a.valueType)
    let referenceVerify :=
      if mime128ToBytes op.contentType = payloadReferenceContentType then gPayloadReferenceVerify
      else 0
    satAdd (satAdd (satAdd (satAdd (satAdd base (satMul payloadBytes gByte))
      (satMul annotationBytes gByte)) (satMul annotationCount gAnnotation))
      (satMul indexedCount gArtIndexedAnnotation)) referenceVerify

def totalGas (ops : List Operation) : UInt64 := (ops.map opGas).foldl satAdd gExecuteBase

-- Validation helpers

/-- Valid identifier characters: a-z, 0-9, '.', '-', '_'. -/
def identCharset (b : UInt8) : Bool :=
  (0x61 ≤ b && b ≤ 0x7A) || (0x30 ≤ b && b ≤ 0x39) || b == 0x2D || b == 0x2E || b == 0x5F

/-- Valid leading bytes: a-z only. -/
def identLeading (b : UInt8) : Bool := 0x61 ≤ b && b ≤ 0x7A

/-- The bytes of an identifier from a position on. -/
def validateIdentBytes (position : ℕ) (seenZero : Bool) : Bytes → Except ApplyError Unit
  | [] => .ok ()
  | b :: rest =>
    if b = 0 then validateIdentBytes (position + 1) true rest
    else if seenZero || !(if position = 0 then identLeading b else identCharset b) then
      .error (.revert (.ident32InvalidByte position b))
    else validateIdentBytes (position + 1) seenZero rest

def validateIdent32 (raw : B256) : Except ApplyError Unit :=
  if (b256Bytes raw).head? = some 0 then .error (.revert .ident32Empty)
  else validateIdentBytes 0 false (b256Bytes raw)

def validateAttributeNames (attrs : List AbiAttribute) : Except ApplyError Unit :=
  attrs.forM fun a => validateIdent32 a.name

/-- The first byte after a zero that is not zero. -/
def byteAfterNull (position : ℕ) (seenZero : Bool) : Bytes → Option (ℕ × UInt8)
  | [] => none
  | b :: rest =>
    if b = 0 then byteAfterNull (position + 1) true rest
    else if seenZero then some (position, b)
    else byteAfterNull (position + 1) seenZero rest

def rejectEmbeddedNullInString (a : AbiAttribute) : Except ApplyError Unit :=
  match byteAfterNull 0 false (wordsBytes a.value) with
  | some (position, b) => .error (.revert (.attributeStringInvalidByte a.name position b))
  | none => .ok ()

def rejectInvalidUtf8InString (a : AbiAttribute) : Except ApplyError Unit :=
  let content := packBytes324 a.value
  match invalidUtf8At 0 content with
  | some position =>
    .error (.revert (.attributeStringInvalidByte a.name position (content.getD position 0)))
  | none => .ok ()

/-- Values of one word leave the other three words zero. -/
def rejectNonZeroUpperWords (a : AbiAttribute) : Except ApplyError Unit :=
  match [1, 2, 3].find? fun i => a.value.toList.getD i 0 ≠ 0 with
  | some i => .error (.revert (.attributeValueMalformed a.name a.valueType i))
  | none => .ok ()

def convertAttribute (a : AbiAttribute) : Except ApplyError Attribute := do
  let key := ident32ToBytes a.name
  if a.valueType = attrUint then
    rejectNonZeroUpperWords a
    return ⟨key, a.valueType, b256Bytes a.value[0]⟩
  else if a.valueType = attrString then
    rejectEmbeddedNullInString a
    rejectInvalidUtf8InString a
    return ⟨key, a.valueType, packBytes324 a.value⟩
  else if a.valueType = attrEntityKey then
    rejectNonZeroUpperWords a
    return ⟨key, a.valueType, b256Bytes a.value[0]⟩
  else .error (.fatal (.unknownValueType a.valueType))

def convertAttributes (attrs : List AbiAttribute) : Except ApplyError (List Attribute) :=
  attrs.mapM convertAttribute

-- Entity lookup and ownership guards

/-- What the precompile keeps of a record it has looked up. -/
structure ExistingEntity where
  owner : Address
  expiresAt : UInt64
deriving DecidableEq, Repr

def loadEntity (w : World) (entityKey : B256) : Except ApplyError (Option ExistingEntity) :=
  let code := w.code (entityAddress entityKey)
  if code = [] then .ok none
  else
    match EntityRlp.decodeFromCode code with
    | .ok rlp => .ok (some ⟨rlp.owner, rlp.expiresAt⟩)
    | .error e => .error (.fatal (.decodeEntity (entityAddress entityKey) e))

def notFoundRevert (entityKey : B256) : ApplyError := .revert (.entityNotFound entityKey)

def loadEntityForOwner (w : World) (caller : Address) (currentBlock : UInt64) (entityKey : B256)
    (allowExpired : Bool) : Except ApplyError ExistingEntity := do
  match ← loadEntity w entityKey with
  | none => .error (notFoundRevert entityKey)
  | some entity =>
    -- Who calls does not matter once the entity has expired.
    if !allowExpired && entity.expiresAt ≤ currentBlock then
      .error (.revert (.entityExpired entityKey (clipU32 entity.expiresAt)))
    else if entity.owner ≠ caller then
      .error (.revert (.notOwner entityKey caller entity.owner))
    else return entity

/-- What is hashed for an entity key: chain ID, registry address, owner and nonce. -/
def entityKeyPreimage (chainId : UInt64) (owner : Address) (nonce : UInt32) : Bytes :=
  be 32 chainId.toNat ++ addressBytes arkivAddress ++ addressBytes owner ++ u32Bytes nonce

def deriveEntityKey [Keccak] (chainId : UInt64) (owner : Address) (nonce : UInt32) : B256 :=
  keccak256 (entityKeyPreimage chainId owner nonce)

def emitEntityOp (w : World) (entityKey : B256) (opType : UInt8) (owner : Address)
    (expiresAt : UInt64) : World :=
  w.log ⟨entityKey, opType, owner, clipU32 expiresAt, 0⟩

variable [Host]

-- Per-op application

def applyCreate (ctx : CallContext) (w : World) (op : Operation) : Except ApplyError World := do
  ensure (op.btl != 0) (.revert .zeroBtl)
  validateAttributeNames op.attributes
  let contentType := mime128ToBytes op.contentType
  let expiresAt := satAdd ctx.currentBlock op.btl.toUInt64
  let attributes ← convertAttributes op.attributes
  -- The reference nonce is spent, and the payment made, before the entity is there.
  let (w, reference) ← validateRequiredPayloadReference ctx w op.payload contentType
  let w ← applyPayloadProviderPayment ctx w reference
  match bumpNonce w ctx.caller with
  | .error e => .error (.fatal (.bumpNonce e))
  | .ok (w, currentNonce) =>
    let entityKey := deriveEntityKey ctx.chainId ctx.caller currentNonce
    let w ← liftDb (EntityDb.create w ctx.caller entityKey expiresAt ctx.currentBlock op.payload
      reference.contentType attributes)
    return emitEntityOp w entityKey opCreate ctx.caller expiresAt

def applyUpdate (ctx : CallContext) (w : World) (op : Operation) : Except ApplyError World := do
  validateAttributeNames op.attributes
  let contentType := mime128ToBytes op.contentType
  let entity ← loadEntityForOwner w ctx.caller ctx.currentBlock op.entityKey false
  let attributes ← convertAttributes op.attributes
  let (w, reference) ← validateRequiredPayloadReference ctx w op.payload contentType
  let w ← applyPayloadProviderPayment ctx w reference
  let w ← liftDb (EntityDb.update w op.entityKey ctx.currentBlock op.payload
    reference.contentType attributes)
  return emitEntityOp w op.entityKey opUpdate entity.owner entity.expiresAt

def applyExtend (ctx : CallContext) (w : World) (op : Operation) : Except ApplyError World := do
  ensure (op.btl != 0) (.revert .zeroBtl)
  let entity ← loadEntityForOwner w ctx.caller ctx.currentBlock op.entityKey false
  let newExpiresAt := satAdd ctx.currentBlock op.btl.toUInt64
  ensure (entity.expiresAt < newExpiresAt)
    (.revert (.expiryNotExtended op.entityKey (clipU32 newExpiresAt) (clipU32 entity.expiresAt)))
  let w ← liftDb (EntityDb.extend w op.entityKey ctx.currentBlock newExpiresAt)
  return emitEntityOp w op.entityKey opExtend entity.owner newExpiresAt

def applyTransfer (ctx : CallContext) (w : World) (op : Operation) : Except ApplyError World := do
  let entity ← loadEntityForOwner w ctx.caller ctx.currentBlock op.entityKey false
  ensure (op.newOwner != 0) (.revert (.transferToZeroAddress op.entityKey))
  ensure (op.newOwner != entity.owner) (.revert (.transferToSelf op.entityKey))
  let w ← liftDb (EntityDb.transfer w op.entityKey ctx.currentBlock op.newOwner)
  return emitEntityOp w op.entityKey opTransfer op.newOwner entity.expiresAt

def applyDelete (ctx : CallContext) (w : World) (op : Operation) : Except ApplyError World := do
  let entity ← loadEntityForOwner w ctx.caller ctx.currentBlock op.entityKey false
  let w ← liftDb (EntityDb.delete w op.entityKey)
  return emitEntityOp w op.entityKey opDelete entity.owner entity.expiresAt

/-- Anyone may expire an entity whose time has passed. -/
def applyExpire (ctx : CallContext) (w : World) (op : Operation) : Except ApplyError World := do
  match ← loadEntity w op.entityKey with
  | none => .error (notFoundRevert op.entityKey)
  | some entity =>
    ensure (entity.expiresAt ≤ ctx.currentBlock)
      (.revert (.entityNotExpired op.entityKey (clipU32 entity.expiresAt)))
    let w ← liftDb (EntityDb.expire w op.entityKey)
    return emitEntityOp w op.entityKey opExpire entity.owner entity.expiresAt

def applyOp (ctx : CallContext) (w : World) (op : Operation) : Except ApplyError World :=
  if op.operationType = opCreate then applyCreate ctx w op
  else if op.operationType = opUpdate then applyUpdate ctx w op
  else if op.operationType = opExtend then applyExtend ctx w op
  else if op.operationType = opTransfer then applyTransfer ctx w op
  else if op.operationType = opDelete then applyDelete ctx w op
  else if op.operationType = opExpire then applyExpire ctx w op
  else .error (.revert (.invalidOpType op.operationType))

-- Dispatch

/-- A call of the precompile. `blockNumber` is the 256-bit number of the block environment. -/
structure PrecompileInput where
  targetAddress : Address
  bytecodeAddress : Address
  caller : Address
  value : ℕ
  isStatic : Bool
  data : Bytes
  gas : UInt64
  chainId : UInt64
  blockNumber : ℕ
  baseFee : UInt64
  schedule : List ArkivProtocolScheduleEntry

def PrecompileInput.context (input : PrecompileInput) : CallContext where
  caller := input.caller
  chainId := input.chainId
  currentBlock := satToU64 input.blockNumber
  baseFee := input.baseFee
  schedule := input.schedule

/-- What a call reports: gas and data of a success or a revert, or the halt. -/
inductive PrecompileOutput where
  | success (gasUsed : UInt64) (ret : Option UInt32)
  | revert (gasUsed : UInt64) (data : RevertError)
  | outOfGas
deriving DecidableEq, Repr

inductive PrecompileError where
  | fatal (e : Fatal)
  | panicked
deriving DecidableEq, Repr

/-- Reverts report no gas. -/
def revert (data : RevertError) : PrecompileOutput := .revert 0 data

/-- One call with the world it leaves; the journal is rolled back unless the call succeeds. -/
abbrev PrecompileResult := Except PrecompileError (PrecompileOutput × World)

def dispatchNonces (input : PrecompileInput) (w : World) (body : Bytes) : PrecompileResult :=
  if input.gas < gNonces then .ok (.outOfGas, w)
  else
    match AbiDecoder.decodeNonces body with
    | none => .ok (revert .invalidNoncesCalldata, w)
    | some owner => .ok (.success gNonces (some (readNonce w owner)), w)

/-- The operations of a batch in order, each on the state that the ones before it left. -/
def applyOps (ctx : CallContext) (w : World) (ops : List Operation) : Except ApplyError World :=
  ops.foldlM (applyOp ctx) w

/-- The charge is checked before any operation is applied. -/
def executeOps (input : PrecompileInput) (w : World) (ops : List Operation) : PrecompileResult :=
  if ops = [] then .ok (revert .emptyBatch, w)
  else
    let gasUsed := totalGas ops
    if input.gas < gasUsed then .ok (.outOfGas, w)
    else
      match applyOps input.context w ops with
      | .ok w' => .ok (.success gasUsed none, w')
      | .error (.revert data) => .ok (revert data, w)
      | .error (.fatal e) => .error (.fatal e)
      | .error .panicked => .error .panicked

def dispatchExecute (input : PrecompileInput) (w : World) (body : Bytes) : PrecompileResult :=
  if input.isStatic then .error (.fatal .executeInStaticCall)
  else
    match AbiDecoder.decodeExecute body with
    | none => .ok (revert .invalidExecuteCalldata, w)
    | some ops => executeOps input w ops

def arkivPrecompile (input : PrecompileInput) (w : World) : PrecompileResult :=
  if input.targetAddress ≠ input.bytecodeAddress then .error (.fatal .delegateCallNotAllowed)
  else if input.value ≠ 0 then .error (.fatal .valueBearingCallNotAllowed)
  else if input.data.length < 4 then .ok (revert .calldataTooShort, w)
  else
    let selector := input.data.take 4
    let body := input.data.drop 4
    if selector = noncesSelector then dispatchNonces input w body
    else if selector = executeSelector then dispatchExecute input w body
    else .ok (revert (.unknownSelector selector), w)

end Arkiv
