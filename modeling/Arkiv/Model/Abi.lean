import Mathlib
import Arkiv.Model.Primitives

/-!
# The ABI of the registry contract

The operations of `execute(Operation[])` as they arrive from calldata, and the
errors that go back as revert data.

## Main definitions

- `Operation`, `AbiAttribute` — decoded calldata
- `AbiDecoder` — the decoders of the two entry points
- `RevertError` — the errors of the contract's interface, and the plain messages
-/

namespace Arkiv

open ByteString

/-- `bytes32[4]`. -/
abbrev Words := Vector B256 4

/-- `Attribute` of the ABI: the name is an identifier padded with zeros. -/
structure AbiAttribute where
  name : B256
  valueType : UInt8
  value : Words
deriving DecidableEq

/-- `Operation` of the ABI. Every byte of calldata is paid for out of a 64-bit gas limit, at no
    less than four gas; an attribute takes six words. -/
structure Operation where
  operationType : UInt8
  entityKey : B256
  payload : Bytes
  contentType : Words
  attributes : List AbiAttribute
  btl : UInt32
  newOwner : Address
  paid : payload.length + 192 * attributes.length < 2 ^ 62
deriving DecidableEq

/-- `executeCall::abi_decode_raw` and `noncesCall::abi_decode_raw`. -/
class AbiDecoder where
  decodeExecute : Bytes → Option (List Operation)
  decodeNonces : Bytes → Option Address

/-- The selectors that `sol!` generates for `execute` and `nonces`. -/
def executeSelector : Bytes := [0xba, 0x8c, 0xcf, 0x92]
def noncesSelector : Bytes := [0x7e, 0xce, 0xbe, 0x00]

def opCreate : UInt8 := 1
def opUpdate : UInt8 := 2
def opExtend : UInt8 := 3
def opTransfer : UInt8 := 4
def opDelete : UInt8 := 5
def opExpire : UInt8 := 6

/-- Revert data: an error of the interface with its arguments, or a message of the precompile. -/
inductive RevertError where
  | ident32Empty
  | ident32InvalidByte (position : ℕ) (value : UInt8)
  | emptyBatch
  | invalidOpType (operationType : UInt8)
  | zeroBtl
  | entityNotFound (entityKey : B256)
  | notOwner (entityKey : B256) (caller owner : Address)
  | entityExpired (entityKey : B256) (expiresAt : UInt32)
  | expiryNotExtended (entityKey : B256) (newExpiresAt currentExpiresAt : UInt32)
  | transferToZeroAddress (entityKey : B256)
  | transferToSelf (entityKey : B256)
  | entityNotExpired (entityKey : B256) (expiresAt : UInt32)
  | attributeValueMalformed (name : B256) (valueType : UInt8) (wordIndex : ℕ)
  | attributeStringInvalidByte (name : B256) (position : ℕ) (value : UInt8)
  | payloadReferenceMalformed
  | payloadReferenceUnsupportedVersion (version : UInt64)
  | payloadProviderUnknown (provider : Bytes)
  | payloadProviderSignerNotAllowed (signer : Address)
  | payloadProviderReceiptMismatch
  | payloadProviderSignatureInvalid
  | payloadReferenceNonceUsed (nonce : B256)
  | payloadReferencePaymentInvalid (payment : ℕ)
  | payloadReferencePaymentBelowMinimum (payment minimum : UInt64)
  | payloadReferencePaymentInsufficientBalance (payer : Address) (payment balance : ℕ)
  | payloadProviderPaymentTransferFailed (provider : Address) (amount : ℕ)
  | payloadReferenceRequired (contentType : Bytes)
  | calldataTooShort
  | unknownSelector (selector : Bytes)
  | invalidExecuteCalldata
  | invalidNoncesCalldata
deriving DecidableEq, Repr

end Arkiv
