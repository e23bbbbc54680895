import Mathlib
import Arkiv.IndexTree.Codec
import Arkiv.Model.Bitmap
import Arkiv.Model.EntityRlp
import Arkiv.Model.StateAdapter

/-!
# The entity database

The state handlers of the six operations: counters and ID maps of the system
account, tier-1 pair bitmaps, tier-2 index trees and the entity records.

## Main definitions

- `readNonce`, `bumpNonce`, `payloadReferenceNonceUsed`,
  `consumePayloadReferenceNonce` — per-caller system state
- `Annotation` — a key-value pair of an entity in its on-chain form
- `insertIntoIndexes`, `removeFromIndexes` — one posting in, one posting out
- `EntityDb.create`, `update`, `extend`, `transfer`, `delete`, `expire`
- `resolveId` — from an ID to the record
-/

namespace Arkiv

open ByteString

/-- The errors of the handlers; `panicked` is a panic below them. -/
inductive DbError where
  | nonceOverflow (caller : Address)
  | noEntityAt (entityAddr : Address)
  | entityCode (e : EntityCodeError)
  | invalidBitmap
  | indexTree (e : TreeError)
  | panicked
deriving DecidableEq, Repr

/-- A panic unwinds through the handler. -/
def orPanic {α : Type} : Option α → Except DbError α
  | some a => .ok a
  | none => .error .panicked

-- The built-in annotation keys.

def annotAll : Bytes := ascii "$all"
def annotCreator : Bytes := ascii "$creator"
def annotCreatedAtBlock : Bytes := ascii "$createdAtBlock"
def annotOwner : Bytes := ascii "$owner"
def annotKey : Bytes := ascii "$key"
def annotExpiration : Bytes := ascii "$expiration"
def annotContentType : Bytes := ascii "$contentType"

/-- An annotation in its on-chain form: what goes into the pair bitmap, and whether the value
    is kept in the index tree as well. -/
structure Annotation where
  key : Bytes
  value : Bytes
  tier2 : Bool
deriving DecidableEq, Repr

/-- The annotations that every entity carries. -/
def builtInAnnotations (creator owner : Address) (entityKey : B256)
    (createdAtBlock expiresAt : UInt64) (contentType : Bytes) : List Annotation :=
  [⟨annotAll, [], false⟩,
   ⟨annotCreator, addressBytes creator, false⟩,
   ⟨annotCreatedAtBlock, u64Bytes createdAtBlock, true⟩,
   ⟨annotOwner, addressBytes owner, false⟩,
   ⟨annotKey, b256Bytes entityKey, false⟩,
   ⟨annotExpiration, u64Bytes expiresAt, true⟩,
   ⟨annotContentType, contentType, true⟩]

/-- Entity keys among the user attributes are not indexed in tier 2. -/
def userAnnotations (attributes : List Attribute) : List Annotation :=
  attributes.map fun a => ⟨a.key, a.value, a.valueType != attrEntityKey⟩

/-- The annotations that an update may change. -/
def updatableAnnotations (contentType : Bytes) (attributes : List Attribute) : List Annotation :=
  ⟨annotContentType, contentType, true⟩ :: userAnnotations attributes

section Nonces

variable [Keccak]

/-- The minting nonce of a caller. -/
def readNonce (w : World) (caller : Address) : UInt32 := storageToU32 (w.slot (slotNonces caller))

/-- Returns the nonce from before the increment. -/
def bumpNonce (w : World) (caller : Address) : Except DbError (World × UInt32) :=
  let w := w.ensureAccountPersists systemAccountAddress
  let current := storageToU32 (w.slot (slotNonces caller))
  if current.toNat + 1 < 2 ^ 32 then
    .ok (w.setSlot (slotNonces caller) (u32ToStorage (current + 1)), current)
  else .error (.nonceOverflow caller)

def payloadReferenceNonceUsed (w : World) (caller : Address) (nonce : B256) : Bool :=
  w.slot (slotPayloadReferenceNonce caller nonce) != 0

def consumePayloadReferenceNonce (w : World) (caller : Address) (nonce : B256) : World :=
  (w.ensureAccountPersists systemAccountAddress).setSlot (slotPayloadReferenceNonce caller nonce) 1

end Nonces

variable [Keccak] [RoaringFormat]

/-- An account without code holds the empty bitmap. -/
def readPairBitmap (w : World) (annotKey annotVal : Bytes) : Except DbError Bitmap :=
  let code := w.code (pairAddress annotKey annotVal)
  if code = [] then .ok Bitmap.new
  else
    match Bitmap.fromBytes code with
    | some bitmap => .ok bitmap
    | none => .error .invalidBitmap

omit [RoaringFormat] in
/-- An account without code holds the empty tree. -/
def readIndexTree (w : World) (attrKey : Bytes) : Except DbError IndexTree :=
  let code := w.code (indexAddress attrKey)
  if code = [] then .ok IndexTree.new
  else
    match IndexTree.fromBytes code with
    | .ok tree => .ok tree
    | .error e => .error (.indexTree e)

/-- The tree is touched when the pair had no entity before. -/
def insertIntoIndexes (w : World) (annotKey annotVal : Bytes) (entityId : UInt64) (tier2 : Bool) :
    Except DbError World := do
  let bitmap ← readPairBitmap w annotKey annotVal
  let w := w.setCode (pairAddress annotKey annotVal) (bitmap.insert entityId).toBytes
  if tier2 && bitmap.isEmpty then
    let tree ← readIndexTree w annotKey
    let (tree, _) ← orPanic (tree.insert annotVal)
    let bytes ← orPanic tree.toBytes
    return w.setCode (indexAddress annotKey) bytes
  else return w

/-- The tree is touched when the pair has no entity left. -/
def removeFromIndexes (w : World) (annotKey annotVal : Bytes) (entityId : UInt64) (tier2 : Bool) :
    Except DbError World := do
  let bitmap ← readPairBitmap w annotKey annotVal
  if bitmap.isEmpty then return w
  else
    let bitmap := bitmap.remove entityId
    let w := w.setCode (pairAddress annotKey annotVal) bitmap.toBytes
    if tier2 && bitmap.isEmpty then
      let tree ← readIndexTree w annotKey
      let (tree, _) ← orPanic (tree.remove annotVal)
      if tree.isEmpty then return w.tombstoneCode (indexAddress annotKey)
      else
        let bytes ← orPanic tree.toBytes
        return w.setCode (indexAddress annotKey) bytes
    else return w

def insertAnnotations (w : World) (entityId : UInt64) (annotations : List Annotation) :
    Except DbError World :=
  annotations.foldlM (fun w a => insertIntoIndexes w a.key a.value entityId a.tier2) w

def removeAnnotations (w : World) (entityId : UInt64) (annotations : List Annotation) :
    Except DbError World :=
  annotations.foldlM (fun w a => removeFromIndexes w a.key a.value entityId a.tier2) w

/-- Annotations are compared with their tier, as the sets of the source do. -/
def applyAnnotationDiff (w : World) (old new : List Annotation) (entityId : UInt64) :
    Except DbError World := do
  let w ← removeAnnotations w entityId (old.filter fun a => a ∉ new)
  insertAnnotations w entityId (new.filter fun a => a ∉ old)

omit [Keccak] [RoaringFormat] in
def readEntity (w : World) (entityAddr : Address) : Except DbError EntityRlp :=
  let code := w.code entityAddr
  if code = [] then .error (.noEntityAt entityAddr)
  else
    match EntityRlp.decodeFromCode code with
    | .ok entity => .ok entity
    | .error e => .error (.entityCode e)

omit [RoaringFormat] in
/-- Zero for an address without an entry, which is also the first ID. -/
def readEntityId (w : World) (entityAddr : Address) : UInt64 :=
  storageToU64 (w.slot (slotAddrToId entityAddr))

namespace EntityDb

def create (w : World) (sender : Address) (entityKey : B256) (expiresAt currentBlock : UInt64)
    (payload contentType : Bytes) (attributes : List Attribute) : Except DbError World := do
  let entityId := storageToU64 (w.slot slotEntityCount)
  let w := w.setSlot slotEntityCount (u64ToStorage (entityId + 1))
  let entityAddr := entityAddress entityKey
  let w := w.setSlot (slotIdToAddr entityId) (addressToStorage entityAddr)
  let w := w.setSlot (slotAddrToId entityAddr) (u64ToStorage entityId)
  let w ← insertAnnotations w entityId
    (builtInAnnotations sender sender entityKey currentBlock expiresAt contentType ++
      userAnnotations attributes)
  let entity : EntityRlp :=
    { payload, creator := sender, createdAtBlock := currentBlock, owner := sender, expiresAt,
      contentType, key := entityKey, attributes, lastModifiedAtBlock := currentBlock }
  return w.setCode entityAddr entity.encodeAsCode

def update (w : World) (entityKey : B256) (currentBlock : UInt64) (payload contentType : Bytes)
    (attributes : List Attribute) : Except DbError World := do
  let entityAddr := entityAddress entityKey
  let entityId := readEntityId w entityAddr
  let entity ← readEntity w entityAddr
  let w ← applyAnnotationDiff w (updatableAnnotations entity.contentType entity.attributes)
    (updatableAnnotations contentType attributes) entityId
  let entity := { entity with payload, contentType, attributes, lastModifiedAtBlock := currentBlock }
  return w.setCode entityAddr entity.encodeAsCode

def extend (w : World) (entityKey : B256) (currentBlock newExpiresAt : UInt64) :
    Except DbError World := do
  let entityAddr := entityAddress entityKey
  let entityId := readEntityId w entityAddr
  let entity ← readEntity w entityAddr
  let w ← removeFromIndexes w annotExpiration (u64Bytes entity.expiresAt) entityId true
  let w ← insertIntoIndexes w annotExpiration (u64Bytes newExpiresAt) entityId true
  let entity := { entity with expiresAt := newExpiresAt, lastModifiedAtBlock := currentBlock }
  return w.setCode entityAddr entity.encodeAsCode

def transfer (w : World) (entityKey : B256) (currentBlock : UInt64) (newOwner : Address) :
    Except DbError World := do
  let entityAddr := entityAddress entityKey
  let entityId := readEntityId w entityAddr
  let entity ← readEntity w entityAddr
  let w ← removeFromIndexes w annotOwner (addressBytes entity.owner) entityId false
  let w ← insertIntoIndexes w annotOwner (addressBytes newOwner) entityId false
  let entity := { entity with owner := newOwner, lastModifiedAtBlock := currentBlock }
  return w.setCode entityAddr entity.encodeAsCode

/-- The posting under `$key` is taken from the caller's key, the others from the record. -/
def delete (w : World) (entityKey : B256) : Except DbError World := do
  let entityAddr := entityAddress entityKey
  let entityId := readEntityId w entityAddr
  let entity ← readEntity w entityAddr
  let w ← removeAnnotations w entityId
    (builtInAnnotations entity.creator entity.owner entityKey entity.createdAtBlock
        entity.expiresAt entity.contentType ++
      userAnnotations entity.attributes)
  let w := w.setSlot (slotIdToAddr entityId) 0
  let w := w.setSlot (slotAddrToId entityAddr) 0
  return w.tombstoneCode entityAddr

def expire (w : World) (entityKey : B256) : Except DbError World := delete w entityKey

end EntityDb

omit [RoaringFormat] in
/-- `none` where the ID has no entity. -/
def resolveId (w : World) (id : UInt64) : Except DbError (Option EntityRlp) :=
  let raw := w.slot (slotIdToAddr id)
  if raw = 0 then .ok none
  else
    let code := w.code (storageToAddress raw)
    if code = [] then .ok none
    else
      match EntityRlp.decodeFromCode code with
      | .ok entity => .ok (some entity)
      | .error e => .error (.entityCode e)

end Arkiv
