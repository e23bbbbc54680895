import Mathlib
import Arkiv.Registry.Effect

/-!
# What the handlers are made of

Every handler is a sequence of a few changes of the world. A relation between
worlds that composes and holds of each of them holds of every handler, and of
every accepted operation up to its payment.

## Main definitions

- `World.Closed` — a relation that composes and holds of the single changes
- `OpCall.Pays` — creates and updates come with a signed payment
- `opStep_parts` — an accepted operation around its payment
-/

namespace Arkiv

open ByteString

/-- A relation between worlds that holds of each change the handlers make. A slot may be cleared
    at any time, and written once the system account persists. -/
structure World.Closed (R : World → World → Prop) : Prop where
  refl : ∀ w, R w w
  trans : ∀ {w w' w''}, R w w' → R w' w'' → R w w''
  setCode : ∀ w a c, R w (w.setCode a c)
  setSlot : ∀ w s v, v = 0 ∨ w.nonce systemAccountAddress ≠ 0 → R w (w.setSlot s v)
  ensureAccountPersists : ∀ w a, R w (w.ensureAccountPersists a)
  log : ∀ w e, R w (w.log e)

namespace World.Closed

variable [Host] {R : World → World → Prop} {w w' : World}

theorem insertIntoIndexes (hR : Closed R) {k v : Bytes} {i : UInt64} {t : Bool}
    (h : insertIntoIndexes w k v i t = .ok w') : R w w' := by
  obtain ⟨b, -, ⟨rfl, -⟩ | ⟨tree, tree', new, bytes, -, -, -, -, rfl⟩⟩ := insertIntoIndexes_cases h
  · exact hR.setCode _ _ _
  · exact hR.trans (hR.setCode _ _ _) (hR.setCode _ _ _)

theorem removeFromIndexes (hR : Closed R) {k v : Bytes} {i : UInt64} {t : Bool}
    (h : removeFromIndexes w k v i t = .ok w') : R w w' := by
  obtain ⟨b, -, ⟨-, rfl⟩ | ⟨-, -, rfl⟩ | ⟨tree, tree', gone, -, -, -, -, bytes, -, rfl⟩⟩ :=
    removeFromIndexes_cases h
  · exact hR.refl _
  · exact hR.setCode _ _ _
  · exact hR.trans (hR.setCode _ _ _) (hR.setCode _ _ _)

theorem insertAnnotations (hR : Closed R) {i : UInt64} {as : List Annotation}
    (h : insertAnnotations w i as = .ok w') : R w w' :=
  Runs.foldlM_preserves (P := fun u => R w u)
    (fun _ _ _ _ hk hstep => hR.trans hk (hR.insertIntoIndexes hstep)) (hR.refl w) h

theorem removeAnnotations (hR : Closed R) {i : UInt64} {as : List Annotation}
    (h : removeAnnotations w i as = .ok w') : R w w' :=
  Runs.foldlM_preserves (P := fun u => R w u)
    (fun _ _ _ _ hk hstep => hR.trans hk (hR.removeFromIndexes hstep)) (hR.refl w) h

/-- The reference nonce is written after the system account persists. -/
theorem validateRequiredPayloadReference (hR : Closed R) {ctx : CallContext}
    {payload contentType : Bytes} {auth : PayloadReferenceAuth}
    (h : validateRequiredPayloadReference ctx w payload contentType = .ok (w', auth)) :
    R w w' := by
  obtain ⟨-, -, rfl⟩ := validateRequiredPayloadReference_ok h
  have hnonce := World.nonce_ensureAccountPersists_self w systemAccountAddress
  exact hR.trans (hR.ensureAccountPersists _ _) (hR.setSlot _ _ _ (.inr hnonce))

theorem bumpNonce (hR : Closed R) {caller : Address} {n : UInt32}
    (h : bumpNonce w caller = .ok (w', n)) :
    R w w' ∧ w'.nonce systemAccountAddress ≠ 0 := by
  obtain ⟨-, -, rfl⟩ := bumpNonce_ok h
  have hnonce := World.nonce_ensureAccountPersists_self w systemAccountAddress
  refine ⟨hR.trans (hR.ensureAccountPersists _ _) (hR.setSlot _ _ _ (.inr hnonce)), ?_⟩
  rwa [World.nonce_setSlot]

/-- A create writes slots, so it relies on a system account that persists. -/
theorem create (hR : Closed R) {sender : Address} {key : B256} {expiresAt block : UInt64}
    {payload contentType : Bytes} {attributes : List Attribute}
    (hnonce : w.nonce systemAccountAddress ≠ 0)
    (h : EntityDb.create w sender key expiresAt block payload contentType attributes = .ok w') :
    R w w' := by
  obtain ⟨m, hm, rfl⟩ := create_ok h
  refine hR.trans ?_ (hR.trans (hR.insertAnnotations hm) (hR.setCode _ _ _))
  refine hR.trans ?_ (hR.setSlot _ _ _ (.inr (by simpa using hnonce)))
  refine hR.trans ?_ (hR.setSlot _ _ _ (.inr (by simpa using hnonce)))
  exact hR.setSlot _ _ _ (.inr hnonce)

theorem update (hR : Closed R) {key : B256} {block : UInt64} {payload contentType : Bytes}
    {attributes : List Attribute}
    (h : EntityDb.update w key block payload contentType attributes = .ok w') : R w w' := by
  unfold EntityDb.update at h
  obtain ⟨e, -, h⟩ := Runs.ok_bind.mp h
  obtain ⟨m, hdiff, h⟩ := Runs.ok_bind.mp h
  cases h
  obtain ⟨u, hrem, hins⟩ := Runs.ok_bind.mp hdiff
  exact hR.trans (hR.removeAnnotations hrem)
    (hR.trans (hR.insertAnnotations hins) (hR.setCode _ _ _))

theorem extend (hR : Closed R) {key : B256} {block expiresAt : UInt64}
    (h : EntityDb.extend w key block expiresAt = .ok w') : R w w' := by
  unfold EntityDb.extend at h
  obtain ⟨e, -, h⟩ := Runs.ok_bind.mp h
  obtain ⟨u, hrem, h⟩ := Runs.ok_bind.mp h
  obtain ⟨v, hins, h⟩ := Runs.ok_bind.mp h
  cases h
  exact hR.trans (hR.removeFromIndexes hrem)
    (hR.trans (hR.insertIntoIndexes hins) (hR.setCode _ _ _))

theorem transfer (hR : Closed R) {key : B256} {block : UInt64} {owner : Address}
    (h : EntityDb.transfer w key block owner = .ok w') : R w w' := by
  unfold EntityDb.transfer at h
  obtain ⟨e, -, h⟩ := Runs.ok_bind.mp h
  obtain ⟨u, hrem, h⟩ := Runs.ok_bind.mp h
  obtain ⟨v, hins, h⟩ := Runs.ok_bind.mp h
  cases h
  exact hR.trans (hR.removeFromIndexes hrem)
    (hR.trans (hR.insertIntoIndexes hins) (hR.setCode _ _ _))

/-- A deletion only clears slots. -/
theorem delete (hR : Closed R) {key : B256} (h : EntityDb.delete w key = .ok w') : R w w' := by
  unfold EntityDb.delete at h
  obtain ⟨e, -, h⟩ := Runs.ok_bind.mp h
  obtain ⟨u, hrem, h⟩ := Runs.ok_bind.mp h
  cases h
  refine hR.trans ?_ (hR.setCode _ _ _)
  refine hR.trans ?_ (hR.setSlot _ _ _ (.inl rfl))
  refine hR.trans ?_ (hR.setSlot _ _ _ (.inl rfl))
  exact hR.removeAnnotations hrem

end World.Closed

variable [Host] {R : World → World → Prop} {w w' : World}

/-- Creates and updates come with a signed payment. -/
def OpCall.Pays (c : OpCall) : Prop :=
  c.op.operationType = opCreate ∨ c.op.operationType = opUpdate

instance (c : OpCall) : Decidable c.Pays :=
  inferInstanceAs (Decidable (_ ∨ _))

/-- The reference of a paying operation, the payment for it, and what comes before and after. -/
def Paid (R : World → World → Prop) (w : World) (c : OpCall) (w' : World) : Prop :=
  ∃ w₁ auth w₂, R w w₁ ∧ validatePayloadReference c.op.payload c.ctx.chainId = .ok auth ∧
    applyPayloadProviderPayment c.ctx w₁ auth = .ok w₂ ∧ R w₂ w'

/-- **An accepted operation around its payment**, also where names collide. -/
theorem opStep_parts (hR : World.Closed R) {c : OpCall} (h : opStep w c = .ok w') :
    if c.Pays then Paid R w c w' else R w w' := by
  unfold opStep applyOp at h
  split at h
  · next htype =>
    rw [if_pos (.inl htype)]
    unfold applyCreate at h
    obtain ⟨_, -, h⟩ := Runs.ok_bind.mp h
    obtain ⟨_, -, h⟩ := Runs.ok_bind.mp h
    obtain ⟨attributes, -, h⟩ := Runs.ok_bind.mp h
    obtain ⟨⟨w₁, auth⟩, href, h⟩ := Runs.ok_bind.mp h
    obtain ⟨w₂, hpay, h⟩ := Runs.ok_bind.mp h
    cases hbump : bumpNonce w₂ c.ctx.caller with
    | error e => simp [hbump] at h
    | ok r =>
      obtain ⟨w₃, n⟩ := r
      simp only [hbump] at h
      obtain ⟨w₄, hcreate, h⟩ := Runs.ok_bind.mp h
      cases h
      obtain ⟨hw₃, hnonce⟩ := hR.bumpNonce hbump
      refine ⟨w₁, auth, w₂, hR.validateRequiredPayloadReference href,
        (validateRequiredPayloadReference_ok href).1, hpay, ?_⟩
      exact hR.trans hw₃ (hR.trans (hR.create hnonce (liftDb_ok.mp hcreate)) (hR.log _ _))
  split at h
  · next htype =>
    rw [if_pos (.inr htype)]
    unfold applyUpdate at h
    obtain ⟨_, -, h⟩ := Runs.ok_bind.mp h
    obtain ⟨x, -, h⟩ := Runs.ok_bind.mp h
    obtain ⟨attributes, -, h⟩ := Runs.ok_bind.mp h
    obtain ⟨⟨w₁, auth⟩, href, h⟩ := Runs.ok_bind.mp h
    obtain ⟨w₂, hpay, h⟩ := Runs.ok_bind.mp h
    obtain ⟨w₃, hupdate, h⟩ := Runs.ok_bind.mp h
    cases h
    exact ⟨w₁, auth, w₂, hR.validateRequiredPayloadReference href,
      (validateRequiredPayloadReference_ok href).1, hpay,
      hR.trans (hR.update (liftDb_ok.mp hupdate)) (hR.log _ _)⟩
  next hcreate hupdate =>
  have hpays : ¬c.Pays := not_or.mpr ⟨hcreate, hupdate⟩
  rw [if_neg hpays]
  split at h
  · unfold applyExtend at h
    obtain ⟨_, -, h⟩ := Runs.ok_bind.mp h
    obtain ⟨x, -, h⟩ := Runs.ok_bind.mp h
    obtain ⟨_, -, h⟩ := Runs.ok_bind.mp h
    obtain ⟨w₃, hextend, h⟩ := Runs.ok_bind.mp h
    cases h
    exact hR.trans (hR.extend (liftDb_ok.mp hextend)) (hR.log _ _)
  split at h
  · unfold applyTransfer at h
    obtain ⟨x, -, h⟩ := Runs.ok_bind.mp h
    obtain ⟨_, -, h⟩ := Runs.ok_bind.mp h
    obtain ⟨_, -, h⟩ := Runs.ok_bind.mp h
    obtain ⟨w₃, htransfer, h⟩ := Runs.ok_bind.mp h
    cases h
    exact hR.trans (hR.transfer (liftDb_ok.mp htransfer)) (hR.log _ _)
  split at h
  · unfold applyDelete at h
    obtain ⟨x, -, h⟩ := Runs.ok_bind.mp h
    obtain ⟨w₃, hdelete, h⟩ := Runs.ok_bind.mp h
    cases h
    exact hR.trans (hR.delete (liftDb_ok.mp hdelete)) (hR.log _ _)
  split at h
  · unfold applyExpire at h
    obtain ⟨found, -, h⟩ := Runs.ok_bind.mp h
    cases found with
    | none => simp at h
    | some x =>
      obtain ⟨_, -, h⟩ := Runs.ok_bind.mp h
      obtain ⟨w₃, hexpire, h⟩ := Runs.ok_bind.mp h
      cases h
      exact hR.trans (hR.delete (liftDb_ok.mp hexpire)) (hR.log _ _)
  · cases h

end Arkiv
