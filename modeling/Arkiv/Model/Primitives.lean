import Mathlib
import Arkiv.Lib.Bytes

/-!
# Addresses, words and derived addresses

The fixed-width values of the chain and the addresses and storage slots that
entitydb derives by hashing. Keccak-256 itself is a parameter.

## Main definitions

- `Keccak` — the hash function every derivation uses
- `entityAddress`, `pairAddress`, `indexAddress` — the three account families
- `slotEntityCount`, `slotIdToAddr`, `slotAddrToId`, `slotNonces`,
  `slotPayloadReferenceNonce` — the slots of the system account
-/

namespace Arkiv

open ByteString

abbrev Address := BitVec 160

abbrev B256 := BitVec 256

/-- `Address::as_slice`. -/
def addressBytes (a : Address) : Bytes := be 20 a.toNat

/-- The big-endian bytes of a word. -/
def b256Bytes (b : B256) : Bytes := be 32 b.toNat

/-- `u64::to_be_bytes`. -/
def u64Bytes (n : UInt64) : Bytes := be 8 n.toNat

/-- `u32::to_be_bytes`. -/
def u32Bytes (n : UInt32) : Bytes := be 4 n.toNat

@[simp] theorem addressBytes_length (a : Address) : (addressBytes a).length = 20 := by
  simp only [addressBytes, be_length]

@[simp] theorem b256Bytes_length (b : B256) : (b256Bytes b).length = 32 := by
  simp only [b256Bytes, be_length]

@[simp] theorem u64Bytes_length (n : UInt64) : (u64Bytes n).length = 8 := by
  simp only [u64Bytes, be_length]

@[simp] theorem u32Bytes_length (n : UInt32) : (u32Bytes n).length = 4 := by
  simp only [u32Bytes, be_length]

theorem addressBytes_inj {a b : Address} : addressBytes a = addressBytes b ↔ a = b := by
  refine ⟨fun h => BitVec.eq_of_toNat_eq ?_, fun h => h ▸ rfl⟩
  have ha := a.isLt
  have hb := b.isLt
  exact be_inj (by omega) (by omega) h

theorem b256Bytes_inj {a b : B256} : b256Bytes a = b256Bytes b ↔ a = b := by
  refine ⟨fun h => BitVec.eq_of_toNat_eq ?_, fun h => h ▸ rfl⟩
  have ha := a.isLt
  have hb := b.isLt
  exact be_inj (by omega) (by omega) h

theorem u64Bytes_inj {a b : UInt64} : u64Bytes a = u64Bytes b ↔ a = b := by
  refine ⟨fun h => UInt64.toNat_inj.mp ?_, fun h => h ▸ rfl⟩
  have ha := a.toNat_lt
  have hb := b.toNat_lt
  exact be_inj (by omega) (by omega) h

theorem u32Bytes_inj {a b : UInt32} : u32Bytes a = u32Bytes b ↔ a = b := by
  refine ⟨fun h => UInt32.toNat_inj.mp ?_, fun h => h ▸ rfl⟩
  have ha := a.toNat_lt
  have hb := b.toNat_lt
  exact be_inj (by omega) (by omega) h

/-- `Address::from_slice(&b.0[..20])`. -/
def firstTwenty (b : B256) : Address := (b >>> 96).setWidth 160

/-- `alloy_primitives::keccak256`. -/
class Keccak where
  keccak256 : Bytes → B256

export Keccak (keccak256)

/-- The account at which the precompile is registered. -/
def arkivAddress : Address := 0x4400000000000000000000000000000000000044#160

/-- The storage host of the counters and the ID maps. -/
def systemAccountAddress : Address := 0x4400000000000000000000000000000000000046#160

/-- An entity's account is named by the first twenty bytes of its key. -/
def entityAddress (entityKey : B256) : Address := firstTwenty entityKey

/-- What is hashed for a pair account: the key ends at the zero byte. -/
def pairPreimage (annotKey annotVal : Bytes) : Bytes :=
  ascii "arkiv.pair" ++ annotKey ++ 0 :: annotVal

/-- What is hashed for an index account. -/
def indexPreimage (attrKey : Bytes) : Bytes := ascii "arkiv.index" ++ attrKey

/-- The account address derived from a preimage. -/
def derivedAddress [Keccak] (preimage : Bytes) : Address := firstTwenty (keccak256 preimage)

def pairAddress [Keccak] (annotKey annotVal : Bytes) : Address :=
  derivedAddress (pairPreimage annotKey annotVal)

def indexAddress [Keccak] (attrKey : Bytes) : Address := derivedAddress (indexPreimage attrKey)

def entityCountPreimage : Bytes := ascii "entity_count"

def idToAddrPreimage (entityId : UInt64) : Bytes := ascii "id_to_addr" ++ u64Bytes entityId

def addrToIdPreimage (entityAddr : Address) : Bytes :=
  ascii "addr_to_id" ++ addressBytes entityAddr

def noncesPreimage (caller : Address) : Bytes := ascii "nonces" ++ addressBytes caller

def payloadReferenceNoncePreimage (caller : Address) (nonce : B256) : Bytes :=
  ascii "payload_ref_nonce" ++ addressBytes caller ++ b256Bytes nonce

variable [Keccak]

def slotEntityCount : B256 := keccak256 entityCountPreimage

def slotIdToAddr (entityId : UInt64) : B256 := keccak256 (idToAddrPreimage entityId)

def slotAddrToId (entityAddr : Address) : B256 := keccak256 (addrToIdPreimage entityAddr)

def slotNonces (caller : Address) : B256 := keccak256 (noncesPreimage caller)

def slotPayloadReferenceNonce (caller : Address) (nonce : B256) : B256 :=
  keccak256 (payloadReferenceNoncePreimage caller nonce)

omit [Keccak]

def u64ToStorage (n : UInt64) : B256 := BitVec.ofNat 256 n.toNat

/-- The last eight bytes of a slot. -/
def storageToU64 (b : B256) : UInt64 := UInt64.ofNat (b.toNat % 2 ^ 64)

/-- A `u32` right-aligned in a slot. -/
def u32ToStorage (n : UInt32) : B256 := BitVec.ofNat 256 n.toNat

/-- The last four bytes of a slot. -/
def storageToU32 (b : B256) : UInt32 := UInt32.ofNat (b.toNat % 2 ^ 32)

def addressToStorage (addr : Address) : B256 := addr.setWidth 256

/-- The last twenty bytes of a slot. -/
def storageToAddress (b : B256) : Address := b.setWidth 160

@[simp] theorem storageToU64_u64ToStorage (n : UInt64) : storageToU64 (u64ToStorage n) = n := by
  have hn := n.toNat_lt
  have h : (u64ToStorage n).toNat = n.toNat := by
    simp only [u64ToStorage, BitVec.toNat_ofNat]
    omega
  simp [storageToU64, h]

@[simp] theorem storageToU32_u32ToStorage (n : UInt32) : storageToU32 (u32ToStorage n) = n := by
  have hn := n.toNat_lt
  have h : (u32ToStorage n).toNat = n.toNat := by
    simp only [u32ToStorage, BitVec.toNat_ofNat]
    omega
  simp [storageToU32, h]

@[simp] theorem storageToAddress_addressToStorage (a : Address) :
    storageToAddress (addressToStorage a) = a := by
  simp [storageToAddress, addressToStorage]

theorem addressToStorage_inj {a b : Address} : addressToStorage a = addressToStorage b ↔ a = b := by
  constructor
  · intro h
    rw [← storageToAddress_addressToStorage a, h, storageToAddress_addressToStorage]
  · exact congrArg addressToStorage

@[simp] theorem storageToU64_zero : storageToU64 0 = 0 := rfl

@[simp] theorem storageToU32_zero : storageToU32 0 = 0 := rfl

@[simp] theorem storageToAddress_zero : storageToAddress 0 = 0 := rfl

/-- `u64::saturating_add`. -/
def satAdd (a b : UInt64) : UInt64 := if a.toNat + b.toNat < 2 ^ 64 then a + b else 0xFFFFFFFFFFFFFFFF

/-- `u64::saturating_mul`. -/
def satMul (a b : UInt64) : UInt64 := if a.toNat * b.toNat < 2 ^ 64 then a * b else 0xFFFFFFFFFFFFFFFF

/-- `Uint::saturating_to::<u64>`. -/
def satToU64 (n : ℕ) : UInt64 := if n < 2 ^ 64 then UInt64.ofNat n else 0xFFFFFFFFFFFFFFFF

/-- Block numbers go into events and errors as `uint32`. -/
def clipU32 (n : UInt64) : UInt32 := UInt32.ofNat (min n.toNat (2 ^ 32 - 1))

end Arkiv
