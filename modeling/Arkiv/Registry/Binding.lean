import Mathlib
import Arkiv.DevChain.Check
import Arkiv.Lib.Json
import Arkiv.Registry.Reference

/-!
# What a signature binds

The declared message hash of an accepted payload is the hash of the signed
receipt's JSON text, and the text determines every member of the receipt. Two
accepted payloads with one message hash thus agree on the signed fields.

## Main definitions

- `PayloadReceiptJson.members` — the members in declaration order
- `eip191Message` — the message that is hashed for a text
- `ReceiptLaws` — what serde_json, alloy and hex are relied on for
- `Signed` — what the returned authorization has to do with the signed receipt
- `SameFields` — two references agree on what is signed
-/

namespace Arkiv

open ByteString

/-- The members in the order of the declaration. -/
def PayloadReceiptJson.members (r : PayloadReceiptJson) : List (Bytes × Json.Value) :=
  [(ascii "service", .text r.service), (ascii "action", .text r.action),
   (ascii "payloadId", .text r.payloadId), (ascii "namespace", .text r.ns),
   (ascii "checksum", .text r.checksum), (ascii "sizeBytes", .number r.sizeBytes.toNat),
   (ascii "submittedAt", .text r.submittedAt), (ascii "nonce", .text r.nonce),
   (ascii "payment", .number r.payment.toNat)]

/-- The text behind the preamble and its length. -/
def eip191Message (text : Bytes) : Bytes :=
  0x19 :: ascii "Ethereum Signed Message:\n" ++ Json.decimal text.length ++ text

/-- The message of a receipt. -/
def PayloadReceiptJson.message (r : PayloadReceiptJson) : Bytes :=
  eip191Message (Json.object r.members)

/-- `serde_json` writes the members in declaration order, `hex` writes two digits for a byte, and
    the hash of EIP-191 is the one of Keccak. -/
class ReceiptLaws [Keccak] [ReceiptCrates] : Prop where
  receiptToVec : ∀ r : PayloadReceiptJson, ReceiptCrates.receiptToVec r = Json.object r.members
  encodePrefixed : ∀ bytes : Bytes, ReceiptCrates.encodePrefixed bytes = ascii "0x" ++ toHex bytes
  eip191HashMessage : ∀ text : Bytes,
    ReceiptCrates.eip191HashMessage text = keccak256 (eip191Message text)

/-- The fields that the receipt repeats. -/
structure PayloadReferenceJson.SameFields (x y : PayloadReferenceJson) : Prop where
  id : x.id = y.id
  ns : x.ns = y.ns
  checksum : x.checksum = y.checksum
  sizeBytes : x.sizeBytes = y.sizeBytes
  submittedAt : x.submittedAt = y.submittedAt
  nonce : x.nonce = y.nonce
  payment : x.payment = y.payment

section Text

theorem PayloadReceiptJson.members_injective : Function.Injective members := by
  rintro ⟨⟩ ⟨⟩ h
  simpa [members, UInt64.toNat_inj] using h

/-- The length ends at the brace of the object. -/
theorem PayloadReceiptJson.message_injective : Function.Injective message := by
  intro x y h
  have hends (r : PayloadReceiptJson) : Json.EndsNumber (Json.object r.members) := by
    rintro b ⟨⟩
    rfl
  have htexts : Json.decimal (Json.object x.members).length ++ Json.object x.members =
      Json.decimal (Json.object y.members).length ++ Json.object y.members := by
    simpa [message, eip191Message] using h
  obtain ⟨-, hobject⟩ := Json.unambiguous_decimal (hends x) (hends y) htexts
  exact members_injective (Json.object_injective hobject)

theorem toList_eq_zeros {bytes : Vector UInt8 32} (h : wordOfBytes bytes = 0) :
    bytes.toList = List.replicate 32 0 := by
  have hlen : bytes.toList.length = 32 := by simp
  have hlt : ofBe bytes.toList < 2 ^ 256 := by
    have hlt := ofBe_lt bytes.toList
    rw [hlen] at hlt
    exact lt_of_lt_of_eq hlt (by norm_num)
  have hzero : ofBe bytes.toList = 0 := by
    have hword := congrArg BitVec.toNat h
    rwa [wordOfBytes, BitVec.toNat_ofNat, Nat.mod_eq_of_lt hlt] at hword
  rw [← be_ofBe hlen, hzero]
  decide

end Text

section Accepted

variable [Keccak] [ReceiptCrates]

/-- What an authorization has to do with the signed receipt: nonce and payment are the signed
    ones, and the trusted provider signed the hash that the payload declares. -/
structure Signed (chainId : UInt64) (reference : PayloadReferenceJson)
    (auth : PayloadReferenceAuth) : Prop where
  receipt : reference.signature.receipt = reference.expectedReceipt
  nonce : ∃ bytes, decodePrefixedHexExact 32 reference.signature.receipt.nonce = .ok bytes ∧
    auth.nonce = wordOfBytes bytes
  nonce_ne : auth.nonce ≠ 0
  payment : auth.payment = reference.signature.receipt.payment
  payment_pos : 0 < auth.payment
  messageHash : reference.signature.messageHash =
    ascii "0x" ++ toHex (b256Bytes (keccak256 reference.signature.receipt.message))
  parity : reference.signature.v = 27 ∨ reference.signature.v = 28
  provider : ∃ r s packed, decodePrefixedHexExact 32 reference.signature.r = .ok r ∧
    decodePrefixedHexExact 32 reference.signature.s = .ok s ∧
    decodePrefixedHexExact 65 reference.signature.signature = .ok packed ∧
    packed.toList = r.toList ++ s.toList ++ [reference.signature.v] ∧
    ReceiptCrates.recoverAddressFromPrehash (wordOfBytes r) (wordOfBytes s)
      (reference.signature.v == 28) (keccak256 reference.signature.receipt.message) =
      some auth.provider
  trusted : auth.provider ∈ trustedPayloadProviderSigners ∨
    chainId = devChainId ∧ auth.provider ∈ trustedDevPayloadProviderSigners

omit [Keccak] in
/-- The returned nonce is decoded, and some byte of it is not zero. -/
theorem validatePayloadReferenceNonce_ok {value : Bytes} {nonce : B256}
    (h : validatePayloadReferenceNonce value = .ok nonce) :
    (∃ bytes, decodePrefixedHexExact 32 value = .ok bytes ∧ nonce = wordOfBytes bytes) ∧
      nonce ≠ 0 := by
  unfold validatePayloadReferenceNonce at h
  split at h
  · cases h
  next bytes hdecode =>
  split at h
  · cases h
  next hne =>
  obtain rfl := Except.ok.inj h
  exact ⟨⟨bytes, hdecode, rfl⟩, fun hzero => hne (toList_eq_zeros hzero)⟩

variable [ReceiptLaws]

theorem receiptHash_eq (r : PayloadReceiptJson) : receiptHash r = keccak256 r.message := by
  rw [receiptHash, ReceiptLaws.receiptToVec, ReceiptLaws.eip191HashMessage]
  rfl

theorem signed_of_accepted {chainId : UInt64} {reference : PayloadReferenceJson}
    {auth : PayloadReferenceAuth} (h : AcceptedReference reference chainId auth) :
    Signed chainId reference auth := by
  have hreceipt := h.signature.receipt_eq
  have hash := receiptHash_eq reference.signature.receipt
  obtain ⟨hnonce, hne⟩ := validatePayloadReferenceNonce_ok h.nonce
  have htrusted := h.signature.trusted
  simp only [isTrustedPayloadProviderSigner, Bool.or_eq_true, Bool.and_eq_true, decide_eq_true_eq,
    beq_iff_eq] at htrusted
  have hsigned := h.signature
  rw [← hreceipt] at hsigned
  have hmessage := hsigned.messageHash_eq
  have hrecovered := hsigned.recovered
  rw [hash, ReceiptLaws.encodePrefixed] at hmessage
  rw [hash] at hrecovered
  exact
    { receipt := hreceipt
      nonce := by rwa [hreceipt]
      nonce_ne := hne
      payment := by rw [hreceipt]; exact h.payment
      payment_pos := by
        rw [h.payment]
        exact UInt64.pos_iff_ne_zero.mpr h.payment_ne
      messageHash := hmessage
      parity := hsigned.parity
      provider := hrecovered
      trusted := htrusted }

omit [ReceiptLaws] in
/-- One hash is declared for one message, unless two messages collide. -/
theorem message_eq_of_messageHash {chainId : UInt64} {x y : PayloadReferenceJson}
    {auth auth' : PayloadReferenceAuth} (hx : Signed chainId x auth) (hy : Signed chainId y auth')
    (hfree : keccak256 x.signature.receipt.message = keccak256 y.signature.receipt.message →
      x.signature.receipt.message = y.signature.receipt.message)
    (h : x.signature.messageHash = y.signature.messageHash) :
    x.signature.receipt.message = y.signature.receipt.message := by
  rw [hx.messageHash, hy.messageHash] at h
  exact hfree (b256Bytes_inj.mp (toHex_injective (List.append_cancel_left h)))

omit [Keccak] [ReceiptCrates] [ReceiptLaws] in
theorem sameFields_of_receipt {x y : PayloadReferenceJson}
    (h : x.expectedReceipt = y.expectedReceipt) : x.SameFields y where
  id := congrArg PayloadReceiptJson.payloadId h
  ns := congrArg PayloadReceiptJson.ns h
  checksum := congrArg PayloadReceiptJson.checksum h
  sizeBytes := congrArg PayloadReceiptJson.sizeBytes h
  submittedAt := congrArg PayloadReceiptJson.submittedAt h
  nonce := congrArg PayloadReceiptJson.nonce h
  payment := congrArg PayloadReceiptJson.payment h

/-- **Signed fields are bound**: what an accepted payload authorizes is what its provider signed,
    and another payload accepted with the same message hash has the same signed fields, if the
    two signed messages do not collide. -/
theorem signedFields_bound {chainId : UInt64} {payload payload' : Bytes}
    {auth auth' : PayloadReferenceAuth} {x y : PayloadReferenceJson}
    (h : validatePayloadReference payload chainId = .ok auth)
    (h' : validatePayloadReference payload' chainId = .ok auth')
    (hx : ReceiptCrates.fromSlice payload = some x) (hy : ReceiptCrates.fromSlice payload' = some y)
    (hfree : keccak256 x.signature.receipt.message = keccak256 y.signature.receipt.message →
      x.signature.receipt.message = y.signature.receipt.message) :
    Signed chainId x auth ∧ Signed chainId y auth' ∧
      (x.signature.messageHash = y.signature.messageHash → x.SameFields y) := by
  obtain ⟨r, hr, haccepted⟩ := acceptedReference_of_ok h
  obtain ⟨r', hr', haccepted'⟩ := acceptedReference_of_ok h'
  obtain rfl : r = x := Option.some.inj (hr.symm.trans hx)
  obtain rfl : r' = y := Option.some.inj (hr'.symm.trans hy)
  have hsigned := signed_of_accepted haccepted
  have hsigned' := signed_of_accepted haccepted'
  refine ⟨hsigned, hsigned', fun hhash => ?_⟩
  have hmessage := message_eq_of_messageHash hsigned hsigned' hfree hhash
  have hreceipt := PayloadReceiptJson.message_injective hmessage
  rw [hsigned.receipt, hsigned'.receipt] at hreceipt
  exact sameFields_of_receipt hreceipt

end Accepted

section Example

open DevChain

/-- The first reference of the development chain, for another type of content. -/
def imageReference : PayloadReferenceJson :=
  { reference firstReceipt with contentType := some (ascii "image/png") }

/-- The development chain with the JSON text of receipts, reading both references. -/
@[reducible] def jsonCrates : ReceiptCrates :=
  { host.toReceiptCrates with
    fromSlice := fun payload =>
      [reference firstReceipt, imageReference].find? fun r => referenceToVec r = payload
    receiptToVec := fun r => Json.object r.members }

theorem receiptLaws_jsonCrates : @ReceiptLaws host.toKeccak jsonCrates :=
  let _ := host.toKeccak
  let _ := jsonCrates
  { receiptToVec := fun _ => rfl
    encodePrefixed := fun _ => rfl
    eip191HashMessage := fun _ => rfl }

/-- Two payloads with one signature. -/
theorem signedFields_bound_imageReference :
    @Signed host.toKeccak jsonCrates devChainId (reference firstReceipt) createAuth ∧
      (reference firstReceipt).SameFields imageReference := by
  let _ := host.toKeccak
  let _ := jsonCrates
  have _ := receiptLaws_jsonCrates
  have haccepted : validatePayloadReference (referenceToVec (reference firstReceipt)) devChainId =
      .ok createAuth := by decide +kernel
  have haccepted' : validatePayloadReference (referenceToVec imageReference) devChainId =
      .ok { createAuth with contentType := ascii "image/png" } := by decide +kernel
  have hparse : ReceiptCrates.fromSlice (referenceToVec (reference firstReceipt)) =
      some (reference firstReceipt) := by decide +kernel
  have hparse' : ReceiptCrates.fromSlice (referenceToVec imageReference) = some imageReference := by
    decide +kernel
  obtain ⟨hsigned, -, hsame⟩ := signedFields_bound haccepted haccepted' hparse hparse' fun _ => rfl
  exact ⟨hsigned, hsame rfl⟩

end Example

end Arkiv
