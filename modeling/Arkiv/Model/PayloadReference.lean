import Mathlib
import Arkiv.Model.Abi
import Arkiv.Model.EntityDb
import Arkiv.Model.ProtocolSchedule

/-!
# Payload-provider references

Creates and updates carry a signed receipt of a payload provider instead of the
payload itself. Its fields are checked, its signature is recovered, its nonce is
consumed once a caller, and its payment is split between provider and burn.
JSON, hexadecimal text and signature recovery are parameters.

## Main definitions

- `PayloadReferenceJson` — the parsed payload
- `validatePayloadReference` — the checks that need no state
- `validateRequiredPayloadReference` — the checks with the reference nonce
- `applyPayloadProviderPayment` — the transfer to the provider and the burn
-/

namespace Arkiv

open ByteString

/-- Where an operation fails without a revert. -/
inductive Fatal where
  | delegateCallNotAllowed
  | valueBearingCallNotAllowed
  | executeInStaticCall
  | bumpNonce (e : DbError)
  | entityDb (e : DbError)
  | decodeEntity (entityAddr : Address) (e : EntityCodeError)
  | unknownValueType (valueType : UInt8)
  | paymentShareExceeds (share denominator : UInt16)
deriving DecidableEq, Repr

inductive ApplyError where
  | revert (data : RevertError)
  | fatal (e : Fatal)
  | panicked
deriving DecidableEq, Repr

/-- `ApplyError::from`: what fails in the entity database is fatal. -/
def ApplyError.ofDb : DbError → ApplyError
  | .panicked => .panicked
  | e => .fatal (.entityDb e)

/-- The `?` on a result of the entity database. -/
def liftDb {α : Type} : Except DbError α → Except ApplyError α
  | .ok a => .ok a
  | .error e => .error (.ofDb e)

/-- What an operation sees of the call: the caller, the block and the installed schedule. -/
structure CallContext where
  caller : Address
  chainId : UInt64
  currentBlock : UInt64
  baseFee : UInt64
  schedule : List ArkivProtocolScheduleEntry
deriving DecidableEq

structure PayloadReceiptJson where
  service : Bytes
  action : Bytes
  payloadId : Bytes
  ns : Bytes
  checksum : Bytes
  sizeBytes : UInt64
  submittedAt : Bytes
  nonce : Bytes
  payment : UInt64
deriving DecidableEq, Repr

structure PayloadSignatureJson where
  scheme : Bytes
  signer : Bytes
  receipt : PayloadReceiptJson
  messageHash : Bytes
  signature : Bytes
  r : Bytes
  s : Bytes
  v : UInt8
deriving DecidableEq, Repr

/-- The payload of an operation; strings are their UTF-8 bytes. -/
structure PayloadReferenceJson where
  kind : Bytes
  version : UInt64
  provider : Bytes
  id : Bytes
  ns : Bytes
  contentType : Option Bytes
  checksum : Bytes
  sizeBytes : UInt64
  submittedAt : Bytes
  nonce : Bytes
  payment : UInt64
  signature : PayloadSignatureJson
deriving DecidableEq, Repr

/-- JSON, hexadecimal text and signatures: `serde_json::from_slice` and `to_vec`,
    `hex::decode_to_slice` into a buffer of `n` bytes, `hex::encode_prefixed`,
    `eip191_hash_message`, `Address::from_str` and
    `Signature::recover_address_from_prehash`. -/
class ReceiptCrates where
  fromSlice : Bytes → Option PayloadReferenceJson
  receiptToVec : PayloadReceiptJson → Bytes
  decodeToSlice : (n : ℕ) → Bytes → Option (Vector UInt8 n)
  encodePrefixed : Bytes → Bytes
  eip191HashMessage : Bytes → B256
  parseAddress : Bytes → Option Address
  recoverAddressFromPrehash : (r s : B256) → (parity : Bool) → (prehash : B256) → Option Address

/-- `EvmInternals::transfer` on the balances; `none` is a failed transfer. -/
class Journal where
  transfer : (balances : Address → ℕ) → (src dst : Address) → (amount : ℕ) → Option (Address → ℕ)

def payloadReferenceContentType : Bytes := ascii "application/vnd.atlas.payload-reference+json"
def payloadReferenceKind : Bytes := ascii "atlas.payloadReference"
def payloadReferenceVersion : UInt64 := 1
def payloadProviderService : Bytes := ascii "atlas-payload-provider"
def payloadProviderReceiptAction : Bytes := ascii "payloadReceived"
def maxPayloadProviderNamespaceBytes : ℕ := 64
def maxPayloadProviderContentTypeBytes : ℕ := 128
def devChainId : UInt64 := 1337

def trustedPayloadProviderSigners : List Address :=
  [0xbdd23fd1bab3f4075edef4738d1d78a6bc5c236c#160]

def trustedDevPayloadProviderSigners : List Address :=
  [0x7e5f4552091a69125d5dfcb7b8c2659029395bdf#160]

structure PayloadReferenceAuth where
  nonce : B256
  contentType : Bytes
  payment : UInt64
  provider : Address
deriving DecidableEq, Repr

def payloadReferenceMalformed : ApplyError := .revert .payloadReferenceMalformed

def payloadProviderSignatureInvalid : ApplyError := .revert .payloadProviderSignatureInvalid

/-- Either the check holds or the operation fails with the error. -/
def ensure (check : Bool) (e : ApplyError) : Except ApplyError Unit :=
  if check then .ok () else .error e

def isLowerHex (b : UInt8) : Bool := (0x30 ≤ b && b ≤ 0x39) || (0x61 ≤ b && b ≤ 0x66)

def isPrintable (b : UInt8) : Bool := 0x20 ≤ b && b ≤ 0x7e

/-- `str::strip_prefix`. -/
def stripPrefix (pfx value : Bytes) : Option Bytes :=
  if pfx.isPrefixOf value then some (value.drop pfx.length) else none

def validatePayloadId (value : Bytes) : Except ApplyError Unit :=
  ensure (value.length == 64 && value.all isLowerHex) payloadReferenceMalformed

def validatePayloadChecksum (value : Bytes) : Except ApplyError Unit :=
  match stripPrefix (ascii "sha256:") value with
  | none => .error payloadReferenceMalformed
  | some hex => ensure (hex.length == 64 && hex.all isLowerHex) payloadReferenceMalformed

def isNamespaceByte (b : UInt8) : Bool :=
  (0x61 ≤ b && b ≤ 0x7a) || (0x41 ≤ b && b ≤ 0x5a) || (0x30 ≤ b && b ≤ 0x39) || b == 0x2e ||
    b == 0x2d || b == 0x5f

def validatePayloadNamespace (value : Bytes) : Except ApplyError Unit :=
  ensure (!value.isEmpty && value.length ≤ maxPayloadProviderNamespaceBytes &&
    value.all isNamespaceByte) payloadReferenceMalformed

def validatePayloadContentType : Option Bytes → Except ApplyError Unit
  | none => .ok ()
  | some value =>
    ensure (!value.isEmpty && value.length ≤ maxPayloadProviderContentTypeBytes &&
      value.all isPrintable) payloadReferenceMalformed

def validatePayloadSize (sizeBytes : UInt64) : Except ApplyError Unit :=
  ensure (0 < sizeBytes) payloadReferenceMalformed

def validateSubmittedAt (value : Bytes) : Except ApplyError Unit :=
  ensure (!value.isEmpty && value.length ≤ 64 && value.all isPrintable) payloadReferenceMalformed

def validatePayloadReferencePayment (payment : UInt64) : Except ApplyError Unit :=
  ensure (payment != 0) (.revert (.payloadReferencePaymentInvalid 0))

section Crates

variable [ReceiptCrates]

def decodePrefixedHexExact (n : ℕ) (value : Bytes) : Except ApplyError (Vector UInt8 n) :=
  match (stripPrefix (ascii "0x") value).orElse fun _ => stripPrefix (ascii "0X") value with
  | none => .error payloadProviderSignatureInvalid
  | some hexBody =>
    if hexBody.length ≠ n * 2 then .error payloadProviderSignatureInvalid
    else
      match ReceiptCrates.decodeToSlice n hexBody with
      | some out => .ok out
      | none => .error payloadProviderSignatureInvalid

/-- `B256::from` on 32 bytes. -/
def wordOfBytes (bytes : Vector UInt8 32) : B256 := BitVec.ofNat 256 (ofBe bytes.toList)

def validatePayloadReferenceNonce (value : Bytes) : Except ApplyError B256 :=
  match decodePrefixedHexExact 32 value with
  | .error _ => .error payloadReferenceMalformed
  | .ok nonce =>
    if nonce.toList = List.replicate 32 0 then .error payloadReferenceMalformed
    else .ok (wordOfBytes nonce)

def parsePayloadProviderSigner (value : Bytes) : Except ApplyError Address :=
  match ReceiptCrates.parseAddress value with
  | some signer => .ok signer
  | none => .error payloadProviderSignatureInvalid

omit [ReceiptCrates] in
def isTrustedPayloadProviderSigner (signer : Address) (chainId : UInt64) : Bool :=
  signer ∈ trustedPayloadProviderSigners ||
    (chainId == devChainId && signer ∈ trustedDevPayloadProviderSigners)

def validatePayloadSignature (expectedReceipt : PayloadReceiptJson)
    (signature : PayloadSignatureJson) (chainId : UInt64) : Except ApplyError Address := do
  ensure (signature.scheme == ascii "eip191") payloadProviderSignatureInvalid
  ensure (signature.receipt == expectedReceipt) (.revert .payloadProviderReceiptMismatch)
  ensure (signature.v == 27 || signature.v == 28) payloadProviderSignatureInvalid
  let r ← decodePrefixedHexExact 32 signature.r
  let s ← decodePrefixedHexExact 32 signature.s
  let packed ← decodePrefixedHexExact 65 signature.signature
  ensure (packed.toList == r.toList ++ s.toList ++ [signature.v]) payloadProviderSignatureInvalid
  let messageHash := ReceiptCrates.eip191HashMessage (ReceiptCrates.receiptToVec expectedReceipt)
  ensure (signature.messageHash == ReceiptCrates.encodePrefixed (b256Bytes messageHash))
    payloadProviderSignatureInvalid
  let declaredSigner ← parsePayloadProviderSigner signature.signer
  match ReceiptCrates.recoverAddressFromPrehash (wordOfBytes r) (wordOfBytes s)
      (signature.v == 28) messageHash with
  | none => .error payloadProviderSignatureInvalid
  | some recovered =>
    ensure (recovered == declaredSigner) payloadProviderSignatureInvalid
    ensure (isTrustedPayloadProviderSigner declaredSigner chainId)
      (.revert (.payloadProviderSignerNotAllowed declaredSigner))
    return declaredSigner

def validatePayloadReference (payload : Bytes) (chainId : UInt64) :
    Except ApplyError PayloadReferenceAuth := do
  match ReceiptCrates.fromSlice payload with
  | none => .error payloadReferenceMalformed
  | some reference =>
    ensure (reference.kind == payloadReferenceKind) payloadReferenceMalformed
    ensure (reference.version == payloadReferenceVersion)
      (.revert (.payloadReferenceUnsupportedVersion reference.version))
    ensure (reference.provider == payloadProviderService)
      (.revert (.payloadProviderUnknown reference.provider))
    validatePayloadId reference.id
    validatePayloadNamespace reference.ns
    validatePayloadContentType reference.contentType
    let contentType := reference.contentType.getD []
    validatePayloadChecksum reference.checksum
    validatePayloadSize reference.sizeBytes
    validateSubmittedAt reference.submittedAt
    let nonce ← validatePayloadReferenceNonce reference.nonce
    validatePayloadReferencePayment reference.payment
    -- The receipt that the signature has to cover, rebuilt from the reference.
    let expectedReceipt : PayloadReceiptJson :=
      { service := payloadProviderService, action := payloadProviderReceiptAction,
        payloadId := reference.id, ns := reference.ns, checksum := reference.checksum,
        sizeBytes := reference.sizeBytes, submittedAt := reference.submittedAt,
        nonce := reference.nonce, payment := reference.payment }
    let provider ← validatePayloadSignature expectedReceipt reference.signature chainId
    return { nonce, contentType, payment := reference.payment, provider }

/-- Only references are accepted as payloads; the reference nonce is consumed here. -/
def validateRequiredPayloadReference [Keccak] (ctx : CallContext) (w : World)
    (payload contentType : Bytes) : Except ApplyError (World × PayloadReferenceAuth) := do
  ensure (contentType == payloadReferenceContentType)
    (.revert (.payloadReferenceRequired contentType))
  let auth ← validatePayloadReference payload ctx.chainId
  ensure (!payloadReferenceNonceUsed w ctx.caller auth.nonce)
    (.revert (.payloadReferenceNonceUsed auth.nonce))
  return (consumePayloadReferenceNonce w ctx.caller auth.nonce, auth)

end Crates

def validatePayloadProviderPaymentParams (params : ArkivPayloadProviderPaymentParams) :
    Except ApplyError Unit :=
  ensure (params.providerShareBps ≤ paymentBpsDenominator)
    (.fatal (.paymentShareExceeds params.providerShareBps paymentBpsDenominator))

/-- The signed payment in wei. -/
def paymentWei (payment baseFee : UInt64) : ℕ := payment.toNat * baseFee.toNat

def providerAmount (payment : ℕ) (shareBps : UInt16) : ℕ :=
  payment * shareBps.toNat / paymentBpsDenominator.toNat

/-- The transfer to the provider; nothing is transferred for a share of zero. -/
def transferProviderAmount [Journal] (ctx : CallContext) (w : World) (provider : Address)
    (amount : ℕ) : Except ApplyError World :=
  if 0 < amount then
    match Journal.transfer w.balance ctx.caller provider amount with
    | some balances => .ok (w.setBalances balances)
    | none => .error (.revert (.payloadProviderPaymentTransferFailed provider amount))
  else .ok w

/-- The burn, from the balance after the transfer. -/
def burnPayment (ctx : CallContext) (w : World) (payment burn : ℕ) : Except ApplyError World :=
  if 0 < burn then
    let postTransferBalance := w.balance ctx.caller
    if burn ≤ postTransferBalance then .ok (w.setBalance ctx.caller (postTransferBalance - burn))
    else
      .error (.revert (.payloadReferencePaymentInsufficientBalance ctx.caller payment
        postTransferBalance))
  else .ok w

/-- The provider's share is transferred, the rest is burnt. -/
def applyPayloadProviderPayment [Journal] (ctx : CallContext) (w : World)
    (auth : PayloadReferenceAuth) : Except ApplyError World := do
  let params := (arkivProtocolParamsForBlock ctx.schedule ctx.currentBlock).payloadProviderPayment
  if params.enabled = false then return w
  else
    validatePayloadProviderPaymentParams params
    ensure (params.minimumPayment ≤ auth.payment)
      (.revert (.payloadReferencePaymentBelowMinimum auth.payment params.minimumPayment))
    let payment := paymentWei auth.payment ctx.baseFee
    let balance := w.balance ctx.caller
    ensure (payment ≤ balance)
      (.revert (.payloadReferencePaymentInsufficientBalance ctx.caller payment balance))
    let amount := providerAmount payment params.providerShareBps
    let w ← transferProviderAmount ctx w auth.provider amount
    burnPayment ctx w payment (payment - amount)

end Arkiv
