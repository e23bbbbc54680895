import Mathlib
import Arkiv.Lib.Rlp
import Arkiv.Model.Primitives

/-!
# Entity records

An entity is stored as the code of its account: the byte `0xFE`, then the RLP
list of the record's fields in the order of their declaration. Byte vectors are
RLP lists of their bytes.

## Main definitions

- `EntityRlp`, `Attribute` — the stored record
- `EntityRlp.encodeAsCode`, `EntityRlp.decodeFromCode` — record and account code
- `EntityRlp.Fits` — the sizes under which the code reads back
-/

namespace Arkiv

open ByteString

/-- A typed user attribute. -/
structure Attribute where
  key : Bytes
  valueType : UInt8
  value : Bytes
deriving DecidableEq, Repr

def attrUint : UInt8 := 1
def attrString : UInt8 := 2
def attrEntityKey : UInt8 := 3

/-- On-trie representation of an entity. -/
structure EntityRlp where
  payload : Bytes
  creator : Address
  createdAtBlock : UInt64
  owner : Address
  expiresAt : UInt64
  contentType : Bytes
  key : B256
  attributes : List Attribute
  lastModifiedAtBlock : UInt64
deriving DecidableEq, Repr

/-- Codecs of the field types. -/
def u8Rlp : Rlp.Codec UInt8 := (Rlp.uint 1).iso UInt8.toNat UInt8.ofNat

def u64Rlp : Rlp.Codec UInt64 := (Rlp.uint 8).iso UInt64.toNat UInt64.ofNat

def bytesRlp : Rlp.Codec Bytes := Rlp.vec u8Rlp

def addressRlp : Rlp.Codec Address :=
  (Rlp.fixed 20).iso addressBytes fun bs => BitVec.ofNat 160 (ofBe bs)

def b256Rlp : Rlp.Codec B256 := (Rlp.fixed 32).iso b256Bytes fun bs => BitVec.ofNat 256 (ofBe bs)

def Attribute.rlp : Rlp.Codec Attribute :=
  ((bytesRlp.pair (u8Rlp.pair bytesRlp)).iso (fun a => (a.key, a.valueType, a.value))
    fun (key, valueType, value) => ⟨key, valueType, value⟩).struct

def EntityRlp.rlp : Rlp.Codec EntityRlp :=
  ((bytesRlp.pair <| addressRlp.pair <| u64Rlp.pair <| addressRlp.pair <| u64Rlp.pair <|
      bytesRlp.pair <| b256Rlp.pair <| (Rlp.vec Attribute.rlp).pair u64Rlp).iso
    (fun e => (e.payload, e.creator, e.createdAtBlock, e.owner, e.expiresAt, e.contentType, e.key,
      e.attributes, e.lastModifiedAtBlock))
    fun (payload, creator, createdAtBlock, owner, expiresAt, contentType, key, attributes,
        lastModifiedAtBlock) =>
      ⟨payload, creator, createdAtBlock, owner, expiresAt, contentType, key, attributes,
        lastModifiedAtBlock⟩).struct

/-- The EVM's `INVALID` opcode in front of every entity's code. -/
def entityCodePrefix : UInt8 := 0xFE

inductive EntityCodeError where
  | missingPrefix
  | rlp (e : Rlp.Error)
deriving DecidableEq, Repr

def EntityRlp.encodeAsCode (e : EntityRlp) : Bytes := entityCodePrefix :: EntityRlp.rlp.encode e

/-- Whatever follows the record in the code is ignored. -/
def EntityRlp.decodeFromCode : Bytes → Except EntityCodeError EntityRlp
  | [] => .error .missingPrefix
  | b :: rest =>
    if b = entityCodePrefix then
      match EntityRlp.rlp.decode rest with
      | .ok (e, _) => .ok e
      | .error e => .error (.rlp e)
    else .error .missingPrefix

/-- The sizes of an attribute from calldata. -/
structure Attribute.Fits (a : Attribute) : Prop where
  key : a.key.length ≤ 32
  value : a.value.length ≤ 128

/-- The sizes of a record written from calldata. -/
structure EntityRlp.Fits (e : EntityRlp) : Prop where
  body : e.payload.length + 192 * e.attributes.length < 2 ^ 62
  contentType : e.contentType.length ≤ 128
  attributes : ∀ a ∈ e.attributes, a.Fits

theorem EntityRlp.Fits.mono {e e' : EntityRlp} (h : e.Fits)
    (hp : e'.payload = e.payload) (hc : e'.contentType = e.contentType)
    (ha : e'.attributes = e.attributes) : e'.Fits := by
  refine ⟨?_, ?_, ?_⟩
  · rw [hp, ha]
    exact h.body
  · rw [hc]
    exact h.contentType
  · rw [ha]
    exact h.attributes

theorem u8Rlp_inverts : u8Rlp.Inverts fun _ => True := by
  have h := @Rlp.uint_inverts 1 (by omega)
  refine (h.iso fun b => UInt8.ofNat_toNat).mono fun b _ => ?_
  have hb := b.toNat_lt
  omega

theorem u64Rlp_inverts : u64Rlp.Inverts fun _ => True := by
  have h := @Rlp.uint_inverts 8 (by omega)
  refine (h.iso fun n => UInt64.ofNat_toNat).mono fun n _ => ?_
  have hn := n.toNat_lt
  omega

theorem ofNat_ofBe_addressBytes (a : Address) :
    BitVec.ofNat 160 (ofBe (addressBytes a)) = a := by
  have ha := a.isLt
  rw [addressBytes, ofBe_be (by omega)]
  simp

theorem ofNat_ofBe_b256Bytes (b : B256) : BitVec.ofNat 256 (ofBe (b256Bytes b)) = b := by
  have hb := b.isLt
  rw [b256Bytes, ofBe_be (by omega)]
  simp

theorem addressRlp_inverts : addressRlp.Inverts fun _ => True := by
  have h : addressRlp.Inverts fun a => (addressBytes a).length = 20 :=
    (@Rlp.fixed_inverts 20 (by omega)).iso ofNat_ofBe_addressBytes
  exact h.mono fun a _ => addressBytes_length a

theorem b256Rlp_inverts : b256Rlp.Inverts fun _ => True := by
  have h : b256Rlp.Inverts fun b => (b256Bytes b).length = 32 :=
    (@Rlp.fixed_inverts 32 (by omega)).iso ofNat_ofBe_b256Bytes
  exact h.mono fun b _ => b256Bytes_length b

theorem u8Rlp_length_le (b : UInt8) : (u8Rlp.encode b).length ≤ 2 := by
  have hb := b.toNat_lt
  exact @Rlp.uint_encode_length_le 1 b.toNat (by omega) (by omega)

theorem u64Rlp_length_le (n : UInt64) : (u64Rlp.encode n).length ≤ 9 := by
  have hn := n.toNat_lt
  exact @Rlp.uint_encode_length_le 8 n.toNat (by omega) (by omega)

theorem addressRlp_length_le (a : Address) : (addressRlp.encode a).length ≤ 21 := by
  have hlen := addressBytes_length a
  have h := @Rlp.encodeString_length_le (addressBytes a) (by omega)
  simp only [addressRlp, Rlp.Codec.iso, Rlp.fixed]
  omega

theorem b256Rlp_length_le (b : B256) : (b256Rlp.encode b).length ≤ 33 := by
  have hlen := b256Bytes_length b
  have h := @Rlp.encodeString_length_le (b256Bytes b) (by omega)
  simp only [b256Rlp, Rlp.Codec.iso, Rlp.fixed]
  omega

theorem bytesRlp_length_le {bs : Bytes} (h : bs.length < 2 ^ 62) :
    (bytesRlp.encode bs).length ≤ 9 + 2 * bs.length := by
  have hitems : (bs.flatMap u8Rlp.encode).length ≤ 2 * bs.length :=
    Rlp.flatMap_length_le fun b _ => u8Rlp_length_le b
  have hlist := @Rlp.encodeList_length_le (bs.flatMap u8Rlp.encode) (by omega)
  simp only [bytesRlp, Rlp.vec]
  omega

theorem bytesRlp_exact : bytesRlp.Exact := u8Rlp_inverts.exact.vec

theorem Attribute.body_length_le {a : Attribute} (h : a.Fits) :
    (bytesRlp.encode a.key ++ (u8Rlp.encode a.valueType ++ bytesRlp.encode a.value)).length ≤
      340 := by
  have hk := @bytesRlp_length_le a.key (by have := h.key; omega)
  have hv := @bytesRlp_length_le a.value (by have := h.value; omega)
  have ht := u8Rlp_length_le a.valueType
  have := h.key
  have := h.value
  simp only [List.length_append]
  omega

theorem Attribute.rlp_length_le {a : Attribute} (h : a.Fits) : (Attribute.rlp.encode a).length ≤ 349 := by
  have hbody := Attribute.body_length_le h
  have hlist := @Rlp.encodeList_length_le
    (bytesRlp.encode a.key ++ (u8Rlp.encode a.valueType ++ bytesRlp.encode a.value)) (by omega)
  simp only [Attribute.rlp, Rlp.Codec.struct, Rlp.Codec.iso, Rlp.Codec.pair]
  omega

theorem Attribute.rlp_exact : Attribute.rlp.Exact :=
  ((bytesRlp_exact.pair (u8Rlp_inverts.exact.pair bytesRlp_exact)).iso fun _ => rfl).struct

theorem EntityRlp.rlp_exact : EntityRlp.rlp.Exact :=
  ((bytesRlp_exact.pair <| addressRlp_inverts.exact.pair <| u64Rlp_inverts.exact.pair <|
    addressRlp_inverts.exact.pair <| u64Rlp_inverts.exact.pair <| bytesRlp_exact.pair <|
    b256Rlp_inverts.exact.pair <| Attribute.rlp_exact.vec.pair u64Rlp_inverts.exact).iso
      fun _ => rfl).struct

/-- The code of a record decodes to the record as long as its length is a 64-bit number. -/
theorem EntityRlp.decodeFromCode_of_length {e : EntityRlp}
    (h : (EntityRlp.rlp.encode e).length < 2 ^ 64) :
    EntityRlp.decodeFromCode e.encodeAsCode = .ok e := by
  have hdec := EntityRlp.rlp_exact.decode_encode e [] h
  rw [List.append_nil] at hdec
  simp [EntityRlp.encodeAsCode, EntityRlp.decodeFromCode, hdec]

theorem EntityRlp.Fits.rlp_length_lt {e : EntityRlp} (h : e.Fits) :
    (EntityRlp.rlp.encode e).length < 2 ^ 64 := by
  have hattrs : (e.attributes.flatMap Attribute.rlp.encode).length ≤ 349 * e.attributes.length :=
    Rlp.flatMap_length_le fun a ha => Attribute.rlp_length_le (h.attributes a ha)
  have hbody := h.body
  have hct := h.contentType
  have hlist := @Rlp.encodeList_length_le (e.attributes.flatMap Attribute.rlp.encode) (by omega)
  have hpay := @bytesRlp_length_le e.payload (by omega)
  have hcont := @bytesRlp_length_le e.contentType (by omega)
  have h1 := addressRlp_length_le e.creator
  have h2 := u64Rlp_length_le e.createdAtBlock
  have h3 := addressRlp_length_le e.owner
  have h4 := u64Rlp_length_le e.expiresAt
  have h5 := b256Rlp_length_le e.key
  have h6 := u64Rlp_length_le e.lastModifiedAtBlock
  have hstruct := @Rlp.encodeList_length_le
    (bytesRlp.encode e.payload ++ (addressRlp.encode e.creator ++
      (u64Rlp.encode e.createdAtBlock ++ (addressRlp.encode e.owner ++
      (u64Rlp.encode e.expiresAt ++ (bytesRlp.encode e.contentType ++ (b256Rlp.encode e.key ++
      (Rlp.encodeList (e.attributes.flatMap Attribute.rlp.encode) ++
        u64Rlp.encode e.lastModifiedAtBlock)))))))) (by
      simp only [List.length_append]
      omega)
  simp only [EntityRlp.rlp, Rlp.Codec.struct, Rlp.Codec.iso, Rlp.Codec.pair, Rlp.vec]
  simp only [List.length_append] at hstruct ⊢
  omega

/-- **Round trip of entity codes**: the code of a record that fits decodes to the record. -/
theorem EntityRlp.decodeFromCode_encodeAsCode {e : EntityRlp} (h : e.Fits) :
    EntityRlp.decodeFromCode e.encodeAsCode = .ok e :=
  EntityRlp.decodeFromCode_of_length h.rlp_length_lt

/-- A byte vector takes at most `isize::MAX` bytes. -/
def IsByteVec (bs : Bytes) : Prop := bs.length < 2 ^ 63

instance (bs : Bytes) : Decidable (IsByteVec bs) := inferInstanceAs (Decidable (_ < _))

/-- **Entity codes are exact**: every record whose code can be allocated is read back from it,
    and no other record has that code. -/
theorem EntityRlp.encodeAsCode_exact (e : EntityRlp) (h : IsByteVec e.encodeAsCode) :
    EntityRlp.decodeFromCode e.encodeAsCode = .ok e ∧
      ∀ e' : EntityRlp, e'.encodeAsCode = e.encodeAsCode → e' = e := by
  have hread : ∀ e' : EntityRlp, e'.encodeAsCode = e.encodeAsCode →
      EntityRlp.decodeFromCode e.encodeAsCode = .ok e' := by
    intro e' heq
    rw [← heq, IsByteVec, EntityRlp.encodeAsCode, List.length_cons] at h
    rw [← heq]
    exact EntityRlp.decodeFromCode_of_length (by omega)
  have hself := hread e rfl
  refine ⟨hself, fun e' heq => ?_⟩
  rw [hread e' heq] at hself
  exact Except.ok.inj hself

/-- A record with a long payload, a one-byte payload length and an attribute of each type. -/
def sampleRecord : EntityRlp where
  payload := List.replicate 60 0xC8
  creator := 0xAA
  createdAtBlock := 0
  owner := 0xBB
  expiresAt := 99999
  contentType := ascii "application/json"
  key := 0xFF
  attributes :=
    [⟨ascii "title", attrString, ascii "the answer"⟩, ⟨ascii "priority", attrUint, be 32 42⟩,
      ⟨ascii "replyTo", attrEntityKey, List.replicate 32 0xAB⟩]
  lastModifiedAtBlock := 127

theorem EntityRlp.encodeAsCode_exact_sampleRecord :
    IsByteVec sampleRecord.encodeAsCode ∧
      EntityRlp.decodeFromCode sampleRecord.encodeAsCode = .ok sampleRecord :=
  have h : IsByteVec sampleRecord.encodeAsCode := by decide +kernel
  ⟨h, (EntityRlp.encodeAsCode_exact sampleRecord h).1⟩

@[simp] theorem EntityRlp.encodeAsCode_ne_nil (e : EntityRlp) : e.encodeAsCode ≠ [] := by
  simp [EntityRlp.encodeAsCode]

/-- Empty code holds no entity. -/
theorem EntityRlp.decodeFromCode_nil : EntityRlp.decodeFromCode [] = .error .missingPrefix := rfl

end Arkiv
