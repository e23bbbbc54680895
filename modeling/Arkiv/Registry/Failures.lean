import Mathlib
import Arkiv.Registry.Effect

/-!
# How an operation fails

Most checks of an operation fail with a revert. The exceptions are attributes of
an unknown type, keys whose account holds code that is no record, and a schedule
whose share is too large.

## Main definitions

- `Orderly` — a computation that fails by a revert only
- `Reverts` — a computation that does fail by a revert
- `KnownTypes`, `ReadableKey`, `FairShare` — what orderly operations need
-/

namespace Arkiv

open ByteString

/-- A computation that fails, if it does, by a revert. -/
def Orderly {α : Type} (x : Except ApplyError α) : Prop :=
  ∀ e, x = .error e → ∃ data, e = .revert data

def Reverts {α : Type} (x : Except ApplyError α) : Prop := ∃ data, x = .error (.revert data)

theorem Reverts.bind {α β : Type} {x : Except ApplyError α} {f : α → Except ApplyError β}
    (hx : Reverts x) : Reverts (x >>= f) := by
  obtain ⟨data, rfl⟩ := hx
  exact ⟨data, rfl⟩

namespace Orderly

variable {α β : Type} {x : Except ApplyError α} {f : α → Except ApplyError β}

theorem ok (a : α) : Orderly (.ok a) := by
  intro e h
  cases h

theorem revert (data : RevertError) : Orderly (.error (.revert data) : Except ApplyError α) := by
  intro e h
  cases h
  exact ⟨data, rfl⟩

theorem bind (hx : Orderly x) (hf : ∀ a, x = .ok a → Orderly (f a)) : Orderly (x >>= f) := by
  intro e h
  cases hxa : x with
  | ok a =>
    rw [hxa] at h
    exact hf a hxa e h
  | error e' =>
    rw [hxa] at h
    cases h
    exact hx e hxa

/-- What reverts after an orderly start reverts as a whole. -/
theorem reverts_bind (hx : Orderly x) (hf : ∀ a, x = .ok a → Reverts (f a)) :
    Reverts (x >>= f) := by
  cases hxa : x with
  | ok a => exact hf a hxa
  | error e =>
    obtain ⟨data, rfl⟩ := hx e hxa
    exact ⟨data, rfl⟩

theorem ensure (check : Bool) (data : RevertError) : Orderly (ensure check (.revert data)) := by
  cases check
  · exact revert data
  · exact ok ()

theorem forM {γ : Type} {check : γ → Except ApplyError Unit} {l : List γ}
    (h : ∀ a ∈ l, Orderly (check a)) : Orderly (l.forM check) := by
  induction l with
  | nil => exact ok ()
  | cons a l ih =>
    show Orderly (check a >>= fun _ => l.forM check)
    exact (h a List.mem_cons_self).bind fun _ _ => ih fun b hb => h b (List.mem_cons_of_mem _ hb)

theorem mapM {γ : Type} {convert : γ → Except ApplyError α} {l : List γ}
    (h : ∀ a ∈ l, Orderly (convert a)) : Orderly (l.mapM convert) := by
  induction l with
  | nil => exact ok []
  | cons a l ih =>
    rw [List.mapM_cons]
    refine (h a List.mem_cons_self).bind fun _ _ => ?_
    exact (ih fun b hb => h b (List.mem_cons_of_mem _ hb)).bind fun _ _ => ok _

end Orderly

section Validation

theorem orderly_validateIdentBytes (bytes : Bytes) (position : ℕ) (seenZero : Bool) :
    Orderly (validateIdentBytes position seenZero bytes) := by
  induction bytes generalizing position seenZero with
  | nil => exact .ok ()
  | cons b rest ih =>
    rw [validateIdentBytes]
    by_cases hb : b = 0
    · rw [if_pos hb]
      exact ih _ _
    rw [if_neg hb]
    cases seenZero || !(if position = 0 then identLeading b else identCharset b)
    · exact ih _ _
    · exact .revert _

theorem orderly_validateAttributeNames (attrs : List AbiAttribute) :
    Orderly (validateAttributeNames attrs) := by
  refine Orderly.forM fun a _ => ?_
  unfold validateIdent32
  split
  · exact .revert _
  · exact orderly_validateIdentBytes _ _ _

/-- Attributes of the three types that the registry stores. -/
def KnownTypes (attrs : List AbiAttribute) : Prop :=
  ∀ a ∈ attrs, a.valueType = attrUint ∨ a.valueType = attrString ∨ a.valueType = attrEntityKey

theorem orderly_rejectNonZeroUpperWords (a : AbiAttribute) :
    Orderly (rejectNonZeroUpperWords a) := by
  unfold rejectNonZeroUpperWords
  split
  · exact .revert _
  · exact .ok ()

theorem orderly_rejectEmbeddedNullInString (a : AbiAttribute) :
    Orderly (rejectEmbeddedNullInString a) := by
  unfold rejectEmbeddedNullInString
  split
  · exact .revert _
  · exact .ok ()

theorem orderly_rejectInvalidUtf8InString (a : AbiAttribute) :
    Orderly (rejectInvalidUtf8InString a) := by
  unfold rejectInvalidUtf8InString
  dsimp only
  split
  · exact .revert _
  · exact .ok ()

theorem orderly_convertAttributes {attrs : List AbiAttribute} (h : KnownTypes attrs) :
    Orderly (convertAttributes attrs) := by
  refine Orderly.mapM fun a ha => ?_
  unfold convertAttribute
  dsimp only
  split
  · exact (orderly_rejectNonZeroUpperWords a).bind fun _ _ => .ok _
  split
  · refine (orderly_rejectEmbeddedNullInString a).bind fun _ _ => ?_
    exact (orderly_rejectInvalidUtf8InString a).bind fun _ _ => .ok _
  split
  · exact (orderly_rejectNonZeroUpperWords a).bind fun _ _ => .ok _
  next huint hstring hkey =>
  have hknown := h a ha
  simp [huint, hstring, hkey] at hknown

/-- The account of the key holds a record, or no code. -/
def ReadableKey (w : World) (entityKey : B256) : Prop :=
  w.code (entityAddress entityKey) = [] ∨
    ∃ rlp, EntityRlp.decodeFromCode (w.code (entityAddress entityKey)) = .ok rlp

theorem orderly_loadEntity {w : World} {entityKey : B256} (h : ReadableKey w entityKey) :
    Orderly (loadEntity w entityKey) := by
  unfold loadEntity
  dsimp only
  rcases h with hnil | ⟨rlp, hrlp⟩
  · rw [if_pos hnil]
    exact .ok _
  · rw [hrlp]
    split
    · exact .ok _
    · exact .ok _

theorem orderly_loadEntityForOwner {w : World} {caller : Address} {block : UInt64}
    {entityKey : B256} {allowExpired : Bool} (h : ReadableKey w entityKey) :
    Orderly (loadEntityForOwner w caller block entityKey allowExpired) := by
  unfold loadEntityForOwner
  refine (orderly_loadEntity h).bind fun found _ => ?_
  cases found with
  | none => exact .revert _
  | some entity =>
    dsimp only
    split
    · exact .revert _
    split
    · exact .revert _
    · exact .ok _

end Validation

section References

variable [ReceiptCrates]

theorem orderly_decodePrefixedHexExact (n : ℕ) (value : Bytes) :
    Orderly (decodePrefixedHexExact n value) := by
  unfold decodePrefixedHexExact
  split
  · exact .revert _
  split
  · exact .revert _
  split
  · exact .ok _
  · exact .revert _

theorem orderly_validatePayloadSignature (receipt : PayloadReceiptJson)
    (signature : PayloadSignatureJson) (chainId : UInt64) :
    Orderly (validatePayloadSignature receipt signature chainId) := by
  unfold validatePayloadSignature
  refine (Orderly.ensure _ _).bind fun _ _ => ?_
  refine (Orderly.ensure _ _).bind fun _ _ => ?_
  refine (Orderly.ensure _ _).bind fun _ _ => ?_
  refine (orderly_decodePrefixedHexExact _ _).bind fun _ _ => ?_
  refine (orderly_decodePrefixedHexExact _ _).bind fun _ _ => ?_
  refine (orderly_decodePrefixedHexExact _ _).bind fun _ _ => ?_
  refine (Orderly.ensure _ _).bind fun _ _ => ?_
  refine (Orderly.ensure _ _).bind fun _ _ => ?_
  have hsigner (value : Bytes) : Orderly (parsePayloadProviderSigner value) := by
    unfold parsePayloadProviderSigner
    split
    · exact .ok _
    · exact .revert _
  refine (hsigner _).bind fun _ _ => ?_
  split
  · exact .revert _
  · refine (Orderly.ensure _ _).bind fun _ _ => ?_
    exact (Orderly.ensure _ _).bind fun _ _ => .ok _

theorem orderly_validatePayloadReferenceNonce (value : Bytes) :
    Orderly (validatePayloadReferenceNonce value) := by
  unfold validatePayloadReferenceNonce
  split
  · exact .revert _
  split
  · exact .revert _
  · exact .ok _

theorem orderly_validatePayloadReference (payload : Bytes) (chainId : UInt64) :
    Orderly (validatePayloadReference payload chainId) := by
  unfold validatePayloadReference
  have hcontentType (value : Option Bytes) : Orderly (validatePayloadContentType value) := by
    cases value
    · exact .ok ()
    · exact .ensure _ _
  have hchecksum (value : Bytes) : Orderly (validatePayloadChecksum value) := by
    unfold validatePayloadChecksum
    split
    · exact .revert _
    · exact .ensure _ _
  split
  · exact .revert _
  refine (Orderly.ensure _ _).bind fun _ _ => ?_
  refine (Orderly.ensure _ _).bind fun _ _ => ?_
  refine (Orderly.ensure _ _).bind fun _ _ => ?_
  refine (Orderly.ensure _ _).bind fun _ _ => ?_
  refine (Orderly.ensure _ _).bind fun _ _ => ?_
  refine (hcontentType _).bind fun _ _ => ?_
  refine (hchecksum _).bind fun _ _ => ?_
  refine (Orderly.ensure _ _).bind fun _ _ => ?_
  refine (Orderly.ensure _ _).bind fun _ _ => ?_
  refine (orderly_validatePayloadReferenceNonce _).bind fun _ _ => ?_
  refine (Orderly.ensure _ _).bind fun _ _ => ?_
  exact (orderly_validatePayloadSignature _ _ _).bind fun _ _ => .ok _

theorem orderly_validateRequiredPayloadReference [Keccak] (ctx : CallContext) (w : World)
    (payload contentType : Bytes) :
    Orderly (validateRequiredPayloadReference ctx w payload contentType) := by
  unfold validateRequiredPayloadReference
  refine (Orderly.ensure _ _).bind fun _ _ => ?_
  refine (orderly_validatePayloadReference _ _).bind fun _ _ => ?_
  exact (Orderly.ensure _ _).bind fun _ _ => .ok _

end References

section Payment

/-- The share in force is at most the whole. -/
def FairShare (ctx : CallContext) : Prop :=
  (arkivProtocolParamsForBlock ctx.schedule ctx.currentBlock).payloadProviderPayment.providerShareBps ≤
    paymentBpsDenominator

theorem validatePayloadProviderPaymentParams_ok {ctx : CallContext} (h : FairShare ctx) :
    validatePayloadProviderPaymentParams
      (arkivProtocolParamsForBlock ctx.schedule ctx.currentBlock).payloadProviderPayment =
        .ok () := by
  unfold validatePayloadProviderPaymentParams ensure
  unfold FairShare at h
  rw [if_pos (decide_eq_true h)]

variable [Journal]

end Payment

end Arkiv
