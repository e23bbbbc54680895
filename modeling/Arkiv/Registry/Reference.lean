import Mathlib
import Arkiv.Lib.Run
import Arkiv.Model.PayloadReference

/-!
# Accepted payload references

What is known of a payload once its reference is accepted: the content type is
short, the returned nonce is the decoded one, and the signed receipt repeats the
outer fields, so the receipt alone determines the nonce.

## Main definitions

- `VerifiedSignature` — what the checks of a signature establish
- `AcceptedReference` — what the checks of a reference establish
-/

namespace Arkiv

open ByteString

variable [ReceiptCrates]

/-- The receipt that the outer fields of a reference stand for. -/
def PayloadReferenceJson.expectedReceipt (reference : PayloadReferenceJson) :
    PayloadReceiptJson where
  service := payloadProviderService
  action := payloadProviderReceiptAction
  payloadId := reference.id
  ns := reference.ns
  checksum := reference.checksum
  sizeBytes := reference.sizeBytes
  submittedAt := reference.submittedAt
  nonce := reference.nonce
  payment := reference.payment

/-- The hash that the provider signs for a receipt. -/
def receiptHash (receipt : PayloadReceiptJson) : B256 :=
  ReceiptCrates.eip191HashMessage (ReceiptCrates.receiptToVec receipt)

omit [ReceiptCrates] in
theorem ensure_ok {check : Bool} {e : ApplyError} {u : Unit} :
    ensure check e = .ok u ↔ check = true := by
  cases check <;> simp [ensure]

/-- What the checks of a signature establish: it repeats the receipt, its hash is the one of the
    receipt, and the trusted provider is recovered from its scalars over that hash. -/
structure VerifiedSignature (receipt : PayloadReceiptJson) (signature : PayloadSignatureJson)
    (chainId : UInt64) (provider : Address) : Prop where
  receipt_eq : signature.receipt = receipt
  messageHash_eq : signature.messageHash =
    ReceiptCrates.encodePrefixed (b256Bytes (receiptHash receipt))
  parity : signature.v = 27 ∨ signature.v = 28
  recovered : ∃ r s packed, decodePrefixedHexExact 32 signature.r = .ok r ∧
    decodePrefixedHexExact 32 signature.s = .ok s ∧
    decodePrefixedHexExact 65 signature.signature = .ok packed ∧
    packed.toList = r.toList ++ s.toList ++ [signature.v] ∧
    ReceiptCrates.recoverAddressFromPrehash (wordOfBytes r) (wordOfBytes s) (signature.v == 28)
      (receiptHash receipt) = some provider
  declared : ReceiptCrates.parseAddress signature.signer = some provider
  trusted : isTrustedPayloadProviderSigner provider chainId = true

theorem parsePayloadProviderSigner_ok {value : Bytes} {signer : Address}
    (h : parsePayloadProviderSigner value = .ok signer) :
    ReceiptCrates.parseAddress value = some signer := by
  unfold parsePayloadProviderSigner at h
  split at h
  · next hparse =>
    rw [hparse]
    exact congrArg some (Except.ok.inj h)
  · cases h

theorem verifiedSignature_of_ok {receipt : PayloadReceiptJson} {signature : PayloadSignatureJson}
    {chainId : UInt64} {provider : Address}
    (h : validatePayloadSignature receipt signature chainId = .ok provider) :
    VerifiedSignature receipt signature chainId provider := by
  unfold validatePayloadSignature at h
  obtain ⟨_, -, h⟩ := Runs.ok_bind.mp h
  obtain ⟨_, hreceipt, h⟩ := Runs.ok_bind.mp h
  obtain ⟨_, hparity, h⟩ := Runs.ok_bind.mp h
  obtain ⟨r, hr, h⟩ := Runs.ok_bind.mp h
  obtain ⟨s, hs, h⟩ := Runs.ok_bind.mp h
  obtain ⟨packed, hpacked, h⟩ := Runs.ok_bind.mp h
  obtain ⟨_, hsame, h⟩ := Runs.ok_bind.mp h
  obtain ⟨_, hhash, h⟩ := Runs.ok_bind.mp h
  obtain ⟨declared, hdeclared, h⟩ := Runs.ok_bind.mp h
  split at h
  · cases h
  next recovered hrecovered =>
  obtain ⟨_, heq, h⟩ := Runs.ok_bind.mp h
  obtain ⟨_, htrusted, h⟩ := Runs.ok_bind.mp h
  cases h
  obtain rfl : recovered = provider := by simpa using ensure_ok.mp heq
  exact
    { receipt_eq := by simpa using ensure_ok.mp hreceipt
      messageHash_eq := by simpa [receiptHash] using ensure_ok.mp hhash
      parity := by simpa using ensure_ok.mp hparity
      recovered := ⟨r, s, packed, hr, hs, hpacked, by simpa using ensure_ok.mp hsame, hrecovered⟩
      declared := parsePayloadProviderSigner_ok hdeclared
      trusted := ensure_ok.mp htrusted }

/-- What the checks of a reference establish. -/
structure AcceptedReference (reference : PayloadReferenceJson) (chainId : UInt64)
    (auth : PayloadReferenceAuth) : Prop where
  nonce : validatePayloadReferenceNonce reference.nonce = .ok auth.nonce
  contentType : auth.contentType = reference.contentType.getD []
  contentType_length : auth.contentType.length ≤ 128
  payment : auth.payment = reference.payment
  payment_ne : reference.payment ≠ 0
  signature : VerifiedSignature reference.expectedReceipt reference.signature chainId auth.provider

theorem acceptedReference_of_ok {payload : Bytes} {chainId : UInt64} {auth : PayloadReferenceAuth}
    (h : validatePayloadReference payload chainId = .ok auth) :
    ∃ reference, ReceiptCrates.fromSlice payload = some reference ∧
      AcceptedReference reference chainId auth := by
  unfold validatePayloadReference at h
  cases hparse : ReceiptCrates.fromSlice payload with
  | none => simp [hparse] at h
  | some reference =>
    simp only [hparse] at h
    obtain ⟨_, -, h⟩ := Runs.ok_bind.mp h
    obtain ⟨_, -, h⟩ := Runs.ok_bind.mp h
    obtain ⟨_, -, h⟩ := Runs.ok_bind.mp h
    obtain ⟨_, -, h⟩ := Runs.ok_bind.mp h
    obtain ⟨_, -, h⟩ := Runs.ok_bind.mp h
    obtain ⟨_, hct, h⟩ := Runs.ok_bind.mp h
    obtain ⟨_, -, h⟩ := Runs.ok_bind.mp h
    obtain ⟨_, -, h⟩ := Runs.ok_bind.mp h
    obtain ⟨_, -, h⟩ := Runs.ok_bind.mp h
    obtain ⟨nonce, hnonce, h⟩ := Runs.ok_bind.mp h
    obtain ⟨_, hpayment, h⟩ := Runs.ok_bind.mp h
    obtain ⟨provider, hsig, h⟩ := Runs.ok_bind.mp h
    simp only [pure, Except.pure, Except.ok.injEq] at h
    subst h
    refine ⟨reference, rfl, hnonce, rfl, ?_, rfl, by simpa using ensure_ok.mp hpayment,
      verifiedSignature_of_ok hsig⟩
    cases hcontent : reference.contentType with
    | none => simp
    | some value =>
      rw [hcontent] at hct
      have hlen := ensure_ok.mp hct
      simp only [Bool.and_eq_true, decide_eq_true_eq] at hlen
      exact hlen.1.2

/-- **The receipt determines the nonce**, whatever else differs between two payloads. -/
theorem nonce_eq_of_receipt_eq {payload payload' : Bytes} {chainId : UInt64}
    {auth auth' : PayloadReferenceAuth} {r r' : PayloadReferenceJson}
    (h : validatePayloadReference payload chainId = .ok auth)
    (h' : validatePayloadReference payload' chainId = .ok auth')
    (hr : ReceiptCrates.fromSlice payload = some r)
    (hr' : ReceiptCrates.fromSlice payload' = some r')
    (heq : r.signature.receipt = r'.signature.receipt) : auth.nonce = auth'.nonce := by
  obtain ⟨x, hx, haccepted⟩ := acceptedReference_of_ok h
  obtain ⟨y, hy, haccepted'⟩ := acceptedReference_of_ok h'
  obtain rfl : x = r := Option.some.inj (hx.symm.trans hr)
  obtain rfl : y = r' := Option.some.inj (hy.symm.trans hr')
  have hreceipt := haccepted.signature.receipt_eq.symm.trans
    (heq.trans haccepted'.signature.receipt_eq)
  have htext : x.nonce = y.nonce := congrArg PayloadReceiptJson.nonce hreceipt
  have hnonce := haccepted.nonce
  rw [htext, haccepted'.nonce] at hnonce
  exact (Except.ok.inj hnonce).symm

end Arkiv
