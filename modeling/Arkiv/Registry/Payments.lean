import Mathlib
import Arkiv.DevChain.Check
import Arkiv.Registry.Failures
import Arkiv.Registry.Handlers

/-!
# Payments for payloads

Every create and update of an accepted batch takes its signed payment from the
caller: the provider gets its share, rounded down, and the rest is burnt.

## Main definitions

- `TransferLaw` — a transfer moves the amount, or fails
- `signedPayments` — the payments that a batch has signed
- `Conserved` — what an accepted batch does to the balances
- `conserved_executeOps` — every accepted batch does, and no batch overdraws
-/

namespace Arkiv

open ByteString

/-- A transfer that succeeds moves the amount and nothing else. -/
class TransferLaw [Journal] : Prop where
  transfer_ok : ∀ {b : Address → ℕ} {src dst : Address} {n : ℕ} {b' : Address → ℕ},
    Journal.transfer b src dst n = some b' → n ≤ b src ∧
      ∀ a, b' a + (if a = src then n else 0) = b a + (if a = dst then n else 0)

/-- The parameters of the payment at the block of the call. -/
def CallContext.paymentParams (ctx : CallContext) : ArkivPayloadProviderPaymentParams :=
  (arkivProtocolParamsForBlock ctx.schedule ctx.currentBlock).payloadProviderPayment

/-- What the signer of the reference is paid. -/
def CallContext.providerGain (ctx : CallContext) (auth : PayloadReferenceAuth) : ℕ :=
  providerAmount (paymentWei auth.payment ctx.baseFee) ctx.paymentParams.providerShareBps

/-- What the caller pays for the reference. -/
def CallContext.callerLoss (ctx : CallContext) (auth : PayloadReferenceAuth) : ℕ :=
  paymentWei auth.payment ctx.baseFee

theorem paymentWei_lt (payment baseFee : UInt64) : paymentWei payment baseFee < 2 ^ 128 := by
  have h := Nat.mul_lt_mul'' payment.toNat_lt baseFee.toNat_lt
  exact lt_of_lt_of_eq h (by norm_num)

theorem paymentWei_mul_lt (payment baseFee : UInt64) (share : UInt16) :
    paymentWei payment baseFee * share.toNat < 2 ^ 256 := by
  have hshare : share.toNat < 2 ^ 128 := lt_trans share.toNat_lt (by norm_num)
  have h := Nat.mul_lt_mul'' (paymentWei_lt payment baseFee) hshare
  exact lt_of_lt_of_eq h (by norm_num)

theorem providerAmount_le {payment : ℕ} {share : UInt16} (h : share ≤ paymentBpsDenominator) :
    providerAmount payment share ≤ payment := by
  have hle : share.toNat ≤ paymentBpsDenominator.toNat := UInt16.le_iff_toNat_le.mp h
  have hmul := Nat.mul_le_mul_left payment hle
  exact (Nat.div_le_div_right hmul).trans_eq (Nat.mul_div_cancel _ (by decide))

theorem CallContext.providerGain_le {ctx : CallContext} (h : FairShare ctx)
    (auth : PayloadReferenceAuth) : ctx.providerGain auth ≤ ctx.callerLoss auth :=
  providerAmount_le h

section Split

variable [Journal] [TransferLaw] {ctx : CallContext} {w w' : World}

theorem transferProviderAmount_balance {provider : Address} {amount : ℕ}
    (h : transferProviderAmount ctx w provider amount = .ok w') :
    ∀ a, w'.balance a + (if a = ctx.caller then amount else 0) =
      w.balance a + (if a = provider then amount else 0) := by
  unfold transferProviderAmount at h
  by_cases hpos : 0 < amount
  · rw [if_pos hpos] at h
    cases htransfer : Journal.transfer w.balance ctx.caller provider amount with
    | none => simp [htransfer] at h
    | some balances =>
      simp only [htransfer, Except.ok.injEq] at h
      subst h
      exact (TransferLaw.transfer_ok htransfer).2
  · rw [if_neg hpos] at h
    obtain rfl : amount = 0 := by omega
    cases h
    intro a
    simp

omit [Journal] [TransferLaw] in
theorem burnPayment_balance {payment burn : ℕ} (h : burnPayment ctx w payment burn = .ok w') :
    ∀ a, w'.balance a + (if a = ctx.caller then burn else 0) = w.balance a := by
  unfold burnPayment at h
  dsimp only at h
  intro a
  by_cases hpos : 0 < burn
  · rw [if_pos hpos] at h
    by_cases hle : burn ≤ w.balance ctx.caller
    · rw [if_pos hle] at h
      cases h
      rw [World.balance_setBalance]
      by_cases ha : a = ctx.caller
      · subst ha
        rw [Function.update_self, if_pos rfl]
        omega
      · rw [Function.update_of_ne ha, if_neg ha, add_zero]
    · rw [if_neg hle] at h
      cases h
  · rw [if_neg hpos] at h
    cases h
    split <;> omega

/-- **One payment**: it covers the minimum, and moves the share to the provider and the rest to
    nobody. -/
theorem applyPayloadProviderPayment_balance (henabled : ctx.paymentParams.enabled = true)
    (hshare : FairShare ctx) {auth : PayloadReferenceAuth}
    (h : applyPayloadProviderPayment ctx w auth = .ok w') :
    ctx.paymentParams.minimumPayment ≤ auth.payment ∧ ctx.callerLoss auth ≤ w.balance ctx.caller ∧
      ∀ a, w'.balance a + (if a = ctx.caller then ctx.callerLoss auth else 0) =
        w.balance a + (if a = auth.provider then ctx.providerGain auth else 0) := by
  unfold applyPayloadProviderPayment at h
  dsimp only at h
  rw [if_neg (by rw [← CallContext.paymentParams, henabled]; simp)] at h
  obtain ⟨_, -, h⟩ := Runs.ok_bind.mp h
  obtain ⟨_, hmin, h⟩ := Runs.ok_bind.mp h
  obtain ⟨_, hbalance, h⟩ := Runs.ok_bind.mp h
  obtain ⟨w₁, htransfer, hburn⟩ := Runs.ok_bind.mp h
  refine ⟨of_decide_eq_true (ensure_ok.mp hmin), of_decide_eq_true (ensure_ok.mp hbalance),
    fun a => ?_⟩
  have hmoved := transferProviderAmount_balance htransfer a
  have hburnt := burnPayment_balance hburn a
  have hgain := CallContext.providerGain_le hshare auth
  change _ + (if a = ctx.caller then ctx.providerGain auth else 0) =
    _ + (if a = auth.provider then ctx.providerGain auth else 0) at hmoved
  change _ + (if a = ctx.caller then ctx.callerLoss auth - ctx.providerGain auth else 0) = _
    at hburnt
  -- The caller may be the provider, who then gains and loses at once.
  by_cases ha : a = ctx.caller
  · simp only [if_pos ha] at hmoved hburnt ⊢
    omega
  · simp only [if_neg ha, add_zero] at hmoved hburnt ⊢
    omega

end Split

section Batch

variable [Host] [TransferLaw] {ctx : CallContext} {w w' : World}

/-- The payment that an operation has signed: creates and updates with an accepted reference. -/
def signedPayment (ctx : CallContext) (op : Operation) : Option PayloadReferenceAuth :=
  if OpCall.Pays ⟨ctx, op⟩ then (validatePayloadReference op.payload ctx.chainId).toOption else none

def signedPayments (ctx : CallContext) (ops : List Operation) : List PayloadReferenceAuth :=
  ops.filterMap (signedPayment ctx)

omit [TransferLaw] in
theorem signedPayments_cons (ctx : CallContext) (op : Operation) (ops : List Operation) :
    signedPayments ctx (op :: ops) = (signedPayment ctx op).toList ++ signedPayments ctx ops := by
  rw [signedPayments, signedPayments, List.filterMap_cons]
  cases signedPayment ctx op <;> rfl

/-- The sum of the gains of one provider. -/
def gainsOf (ctx : CallContext) (paid : List PayloadReferenceAuth) (a : Address) : ℕ :=
  (paid.map fun auth => if a = auth.provider then ctx.providerGain auth else 0).sum

/-- The sum of the losses of the caller. -/
def losses (ctx : CallContext) (paid : List PayloadReferenceAuth) : ℕ :=
  (paid.map ctx.callerLoss).sum

/-- The balances after payments, next to those before. -/
def SettledBy (ctx : CallContext) (paid : List PayloadReferenceAuth) (w w' : World) : Prop :=
  ∀ a, w'.balance a + (if a = ctx.caller then losses ctx paid else 0) =
    w.balance a + gainsOf ctx paid a

omit [Host] [TransferLaw] in
theorem SettledBy.append {paid paid' : List PayloadReferenceAuth} {w'' : World}
    (h : SettledBy ctx paid w w') (h' : SettledBy ctx paid' w' w'') :
    SettledBy ctx (paid ++ paid') w w'' := by
  intro a
  have ha := h a
  have ha' := h' a
  rw [losses, gainsOf, List.map_append, List.sum_append, List.map_append, List.sum_append,
    ← losses, ← losses, ← gainsOf, ← gainsOf]
  by_cases hcaller : a = ctx.caller
  · rw [if_pos hcaller] at ha ha' ⊢
    omega
  · rw [if_neg hcaller] at ha ha' ⊢
    omega

omit [Host] [TransferLaw] in
theorem closed_balances : World.Closed fun w w' => w'.balance = w.balance where
  refl _ := rfl
  trans h h' := h'.trans h
  setCode w a c := funext fun b => w.balance_setCode a b c
  setSlot w s v _ := funext fun b => w.balance_setSlot b s v
  ensureAccountPersists w a := funext fun b => w.balance_ensureAccountPersists a b
  log _ _ := rfl

/-- **Step**: an accepted operation settles the payment it has signed, which covers the minimum. -/
theorem applyOp_settled (henabled : ctx.paymentParams.enabled = true) (hshare : FairShare ctx)
    {op : Operation} (h : applyOp ctx w op = .ok w') :
    SettledBy ctx (signedPayment ctx op).toList w w' ∧
      (OpCall.Pays ⟨ctx, op⟩ → ∃ auth, signedPayment ctx op = some auth ∧
        ctx.paymentParams.minimumPayment ≤ auth.payment) := by
  have hparts := opStep_parts closed_balances (c := ⟨ctx, op⟩) h
  unfold signedPayment
  by_cases hpays : OpCall.Pays ⟨ctx, op⟩
  · rw [if_pos hpays] at hparts ⊢
    obtain ⟨w₁, auth, w₂, hbefore, hauth, hpay, hafter⟩ := hparts
    obtain ⟨hmin, -, hmoved⟩ := applyPayloadProviderPayment_balance henabled hshare hpay
    simp only at hauth
    rw [hauth]
    refine ⟨fun a => ?_, fun _ => ⟨auth, rfl, hmin⟩⟩
    have ha := hmoved a
    rw [hbefore, ← hafter] at ha
    simpa [Except.toOption, losses, gainsOf] using ha
  · rw [if_neg hpays] at hparts ⊢
    refine ⟨fun a => ?_, fun hpos => absurd hpos hpays⟩
    rw [hparts]
    simp [losses, gainsOf]

/-- An accepted operation was within the means of the caller. -/
theorem callerLoss_le_of_ok (henabled : ctx.paymentParams.enabled = true) (hshare : FairShare ctx)
    {op : Operation} {auth : PayloadReferenceAuth} (hsigned : signedPayment ctx op = some auth)
    (h : applyOp ctx w op = .ok w') : ctx.callerLoss auth ≤ w.balance ctx.caller := by
  have hparts := opStep_parts closed_balances (c := ⟨ctx, op⟩) h
  unfold signedPayment at hsigned
  split at hsigned
  · next hpays =>
    rw [if_pos hpays] at hparts
    obtain ⟨w₁, found, w₂, hbefore, hauth, hpay, -⟩ := hparts
    simp only at hauth
    obtain rfl : found = auth := by simpa [hauth, Except.toOption] using hsigned
    rw [← hbefore]
    exact (applyPayloadProviderPayment_balance henabled hshare hpay).2.1
  · cases hsigned

/-- **Run**: an accepted batch settles all payments it has signed. -/
theorem applyOps_settled (henabled : ctx.paymentParams.enabled = true) (hshare : FairShare ctx)
    {ops : List Operation} (h : applyOps ctx w ops = .ok w') :
    SettledBy ctx (signedPayments ctx ops) w w' ∧
      ∀ op ∈ ops, OpCall.Pays ⟨ctx, op⟩ → ∃ auth, signedPayment ctx op = some auth ∧
        ctx.paymentParams.minimumPayment ≤ auth.payment := by
  unfold applyOps at h
  induction ops generalizing w with
  | nil =>
    cases h
    refine ⟨fun a => ?_, by simp⟩
    simp [signedPayments, losses, gainsOf]
  | cons op ops ih =>
    obtain ⟨w₁, hfirst, hrest⟩ := Runs.foldlM_cons_ok.mp h
    obtain ⟨hsettled, hcovered⟩ := applyOp_settled henabled hshare hfirst
    obtain ⟨hsettled', hcovered'⟩ := ih hrest
    refine ⟨?_, fun x hx => ?_⟩
    · rw [signedPayments_cons]
      exact hsettled.append hsettled'
    · rcases List.mem_cons.mp hx with rfl | hx
      · exact hcovered
      · exact hcovered' x hx

/-- An address that is trusted and that a signature recovers to. -/
def RecoveredSigner (chainId : UInt64) (signer : Address) : Prop :=
  isTrustedPayloadProviderSigner signer chainId = true ∧
    ∃ r s parity hash, ReceiptCrates.recoverAddressFromPrehash r s parity hash = some signer

omit [TransferLaw] in
theorem recoveredSigner_of_reference {payload : Bytes} {chainId : UInt64}
    {auth : PayloadReferenceAuth} (h : validatePayloadReference payload chainId = .ok auth) :
    RecoveredSigner chainId auth.provider := by
  obtain ⟨reference, -, haccepted⟩ := acceptedReference_of_ok h
  obtain ⟨r, s, packed, -, -, -, -, hrecovered⟩ := haccepted.signature.recovered
  exact ⟨haccepted.signature.trusted, _, _, _, _, hrecovered⟩

omit [TransferLaw] in
theorem recoveredSigner_of_signed {op : Operation} {auth : PayloadReferenceAuth}
    (h : signedPayment ctx op = some auth) : RecoveredSigner ctx.chainId auth.provider := by
  unfold signedPayment at h
  split at h
  · cases hauth : validatePayloadReference op.payload ctx.chainId with
    | error e => simp [hauth, Except.toOption] at h
    | ok found =>
      obtain rfl : found = auth := by simpa [hauth, Except.toOption] using h
      exact recoveredSigner_of_reference hauth
  · cases h

/-- What an accepted batch does to the balances, in exact arithmetic: every payment covers the
    minimum and fits its machine integers, providers gain their shares, the caller pays for all,
    and the difference is gone. -/
structure Conserved (ctx : CallContext) (ops : List Operation) (w w' : World) : Prop where
  covered : ∀ op ∈ ops, OpCall.Pays ⟨ctx, op⟩ → ∃ auth, signedPayment ctx op = some auth ∧
    ctx.paymentParams.minimumPayment ≤ auth.payment ∧ RecoveredSigner ctx.chainId auth.provider
  inRange : ∀ auth ∈ signedPayments ctx ops, ctx.callerLoss auth < 2 ^ 128 ∧
    ctx.callerLoss auth * ctx.paymentParams.providerShareBps.toNat < 2 ^ 256 ∧
    ctx.providerGain auth ≤ ctx.callerLoss auth
  total : ∑ a, w'.balance a + ((signedPayments ctx ops).map fun auth =>
    ctx.callerLoss auth - ctx.providerGain auth).sum = ∑ a, w.balance a
  provider : ∀ a, a ≠ ctx.caller → w'.balance a = w.balance a + gainsOf ctx (signedPayments ctx ops) a
  caller : (∀ auth ∈ signedPayments ctx ops, auth.provider ≠ ctx.caller) →
    w'.balance ctx.caller + losses ctx (signedPayments ctx ops) = w.balance ctx.caller
  others : ∀ a, a ≠ ctx.caller → (∀ auth ∈ signedPayments ctx ops, auth.provider ≠ a) →
    w'.balance a = w.balance a

omit [Host] [TransferLaw] in
theorem gainsOf_eq_zero {paid : List PayloadReferenceAuth} {a : Address}
    (h : ∀ auth ∈ paid, auth.provider ≠ a) : gainsOf ctx paid a = 0 := by
  apply List.sum_eq_zero
  intro n hn
  obtain ⟨auth, hauth, rfl⟩ := List.mem_map.mp hn
  exact if_neg fun heq => h auth hauth heq.symm

omit [Host] [TransferLaw] in
/-- Over all accounts the gains are the shares. -/
theorem sum_gainsOf (paid : List PayloadReferenceAuth) :
    ∑ a, gainsOf ctx paid a = (paid.map ctx.providerGain).sum := by
  induction paid with
  | nil => simp [gainsOf]
  | cons auth paid ih =>
    have hcons (a : Address) : gainsOf ctx (auth :: paid) a =
        (if a = auth.provider then ctx.providerGain auth else 0) + gainsOf ctx paid a := by
      rw [gainsOf, List.map_cons, List.sum_cons, gainsOf]
    simp only [hcons]
    rw [Finset.sum_add_distrib, ih, Finset.sum_ite_eq' Finset.univ, if_pos (Finset.mem_univ _),
      List.map_cons, List.sum_cons]

omit [Host] [TransferLaw] in
/-- What is lost and not gained is burnt. -/
theorem sum_burnt (hshare : FairShare ctx) (paid : List PayloadReferenceAuth) :
    (paid.map fun auth => ctx.callerLoss auth - ctx.providerGain auth).sum +
      (paid.map ctx.providerGain).sum = losses ctx paid := by
  rw [losses]
  induction paid with
  | nil => rfl
  | cons auth paid ih =>
    have hle := CallContext.providerGain_le hshare auth
    simp only [List.map_cons, List.sum_cons]
    omega

omit [Host] [TransferLaw] in
theorem SettledBy.total (hshare : FairShare ctx) {paid : List PayloadReferenceAuth}
    (h : SettledBy ctx paid w w') :
    ∑ a, w'.balance a + (paid.map fun auth => ctx.callerLoss auth - ctx.providerGain auth).sum =
      ∑ a, w.balance a := by
  have hsum : ∑ a, (w'.balance a + if a = ctx.caller then losses ctx paid else 0) =
      ∑ a, (w.balance a + gainsOf ctx paid a) := Finset.sum_congr rfl fun a _ => h a
  rw [Finset.sum_add_distrib, Finset.sum_add_distrib, sum_gainsOf,
    Finset.sum_ite_eq' Finset.univ, if_pos (Finset.mem_univ _), ← sum_burnt hshare paid] at hsum
  omega

theorem conserved_applyOps (henabled : ctx.paymentParams.enabled = true) (hshare : FairShare ctx)
    {ops : List Operation} (h : applyOps ctx w ops = .ok w') : Conserved ctx ops w w' := by
  obtain ⟨hsettled, hcovered⟩ := applyOps_settled henabled hshare h
  refine ⟨fun op hop hpays => ?_, fun auth _ => ?_, hsettled.total hshare, fun a ha => ?_,
    fun hself => ?_, fun a ha hnone => ?_⟩
  · obtain ⟨auth, hauth, hmin⟩ := hcovered op hop hpays
    exact ⟨auth, hauth, hmin, recoveredSigner_of_signed hauth⟩
  · exact ⟨paymentWei_lt _ _, paymentWei_mul_lt _ _ _, CallContext.providerGain_le hshare auth⟩
  · have h := hsettled a
    rwa [if_neg ha, add_zero] at h
  · have h := hsettled ctx.caller
    rwa [if_pos rfl, gainsOf_eq_zero hself, add_zero] at h
  · have h := hsettled a
    rwa [if_neg ha, add_zero, gainsOf_eq_zero hnone, add_zero] at h

end Batch

section Overdrawn

variable [Host] {ctx : CallContext} {w : World}

theorem reverts_payment (henabled : ctx.paymentParams.enabled = true) (hshare : FairShare ctx)
    {auth : PayloadReferenceAuth} (h : w.balance ctx.caller < ctx.callerLoss auth) :
    Reverts (applyPayloadProviderPayment ctx w auth) := by
  unfold applyPayloadProviderPayment
  dsimp only
  rw [if_neg (by rw [← CallContext.paymentParams, henabled]; simp),
    validatePayloadProviderPaymentParams_ok hshare]
  refine (Orderly.ok ()).reverts_bind fun _ _ => (Orderly.ensure _ _).reverts_bind fun _ _ => ?_
  have hfails : ¬paymentWei auth.payment ctx.baseFee ≤ w.balance ctx.caller := not_le.mpr h
  rw [ensure, decide_eq_false hfails]
  exact ⟨_, rfl⟩

/-- The payment after the reference, by a caller who cannot pay. -/
theorem reverts_afterReference (henabled : ctx.paymentParams.enabled = true)
    (hshare : FairShare ctx) {payload contentType : Bytes} {auth found : PayloadReferenceAuth}
    {w₁ : World} (hauth : validatePayloadReference payload ctx.chainId = .ok auth)
    (h : w.balance ctx.caller < ctx.callerLoss auth)
    (href : validateRequiredPayloadReference ctx w payload contentType = .ok (w₁, found)) :
    Reverts (applyPayloadProviderPayment ctx w₁ found) := by
  obtain ⟨hfound, -, -⟩ := validateRequiredPayloadReference_ok href
  obtain rfl : found = auth := Except.ok.inj (hfound.symm.trans hauth)
  have hbalance := closed_balances.validateRequiredPayloadReference href
  exact reverts_payment henabled hshare (by rwa [hbalance])

theorem reverts_applyOp (henabled : ctx.paymentParams.enabled = true) (hshare : FairShare ctx)
    {op : Operation} {auth : PayloadReferenceAuth} (hsigned : signedPayment ctx op = some auth)
    (htypes : KnownTypes op.attributes)
    (hkey : op.operationType = opUpdate → ReadableKey w op.entityKey)
    (h : w.balance ctx.caller < ctx.callerLoss auth) : Reverts (applyOp ctx w op) := by
  unfold signedPayment at hsigned
  split at hsigned
  swap
  · cases hsigned
  next hpays =>
  have hauth : validatePayloadReference op.payload ctx.chainId = .ok auth := by
    cases hval : validatePayloadReference op.payload ctx.chainId with
    | error e => simp [hval, Except.toOption] at hsigned
    | ok found => simpa [hval, Except.toOption] using hsigned
  unfold applyOp
  -- What comes before the payment either passes or reverts, given the known types and the record.
  rcases hpays with hcreate | hupdate
  · rw [if_pos hcreate, applyCreate]
    refine (Orderly.ensure _ _).reverts_bind fun _ _ => ?_
    refine (orderly_validateAttributeNames _).reverts_bind fun _ _ => ?_
    refine (orderly_convertAttributes htypes).reverts_bind fun _ _ => ?_
    refine (orderly_validateRequiredPayloadReference _ _ _ _).reverts_bind ?_
    rintro ⟨w₁, found⟩ href
    exact (reverts_afterReference henabled hshare hauth h href).bind
  · have hne : op.operationType ≠ opCreate := by
      rw [show op.operationType = opUpdate from hupdate]
      decide
    rw [if_neg hne, if_pos hupdate, applyUpdate]
    refine (orderly_validateAttributeNames _).reverts_bind fun _ _ => ?_
    refine (orderly_loadEntityForOwner (hkey hupdate)).reverts_bind fun _ _ => ?_
    refine (orderly_convertAttributes htypes).reverts_bind fun _ _ => ?_
    refine (orderly_validateRequiredPayloadReference _ _ _ _).reverts_bind ?_
    rintro ⟨w₁, found⟩ href
    exact (reverts_afterReference henabled hshare hauth h href).bind

/-- **Conservation of value**: an accepted batch conserves value up to what it burns, and a batch
    with an operation that its caller cannot pay for is not accepted. It reverts unless that
    operation fails otherwise: by an attribute of an unknown type or a key without a record. -/
theorem conserved_executeOps [TransferLaw] (input : PrecompileInput) (w : World)
    (ops : List Operation) (henabled : input.context.paymentParams.enabled = true)
    (hshare : FairShare input.context) :
    (∀ gas ret w', executeOps input w ops = .ok (.success gas ret, w') →
      Conserved input.context ops w w') ∧
    ∀ before op after w₁ auth, ops = before ++ op :: after →
      applyOps input.context w before = .ok w₁ → signedPayment input.context op = some auth →
      w₁.balance input.caller < input.context.callerLoss auth →
      (∀ gas ret w', executeOps input w ops ≠ .ok (.success gas ret, w')) ∧
      (totalGas ops ≤ input.gas → KnownTypes op.attributes →
        (op.operationType = opUpdate → ReadableKey w₁ op.entityKey) →
        ∃ data, executeOps input w ops = .ok (.revert 0 data, w)) := by
  refine ⟨fun gas ret w' h => ?_, ?_⟩
  · exact conserved_applyOps henabled hshare (Chain.executeOps_success h)
  rintro before op after w₁ auth rfl hbefore hsigned hpoor
  refine ⟨fun gas ret w' h => ?_, fun hgas htypes hkey => ?_⟩
  · -- An accepted payment is covered by the balance of the caller.
    have hops := Chain.executeOps_success h
    rw [applyOps, List.foldlM_append] at hops
    obtain ⟨w₂, hbefore', hrest⟩ := Runs.ok_bind.mp hops
    obtain rfl : w₂ = w₁ := Except.ok.inj (hbefore'.symm.trans hbefore)
    obtain ⟨w₃, hop, -⟩ := Runs.foldlM_cons_ok.mp hrest
    exact absurd (callerLoss_le_of_ok henabled hshare hsigned hop) (not_le.mpr hpoor)
  · obtain ⟨data, hdata⟩ := reverts_applyOp henabled hshare hsigned htypes hkey hpoor
    refine ⟨data, ?_⟩
    have hops : applyOps input.context w (before ++ op :: after) = .error (.revert data) := by
      rw [applyOps, List.foldlM_append]
      rw [applyOps] at hbefore
      rw [hbefore]
      show List.foldlM (applyOp input.context) w₁ (op :: after) = _
      rw [List.foldlM_cons, hdata]
      rfl
    unfold executeOps
    rw [if_neg (by simp)]
    dsimp only
    rw [if_neg (UInt64.not_lt.mpr hgas), hops]
    rfl

end Overdrawn

namespace DevChain

instance transferLaw : TransferLaw where
  transfer_ok {b src dst n b'} h := by
    change transfer b src dst n = some b' at h
    unfold transfer at h
    split at h
    · cases h
    next hle =>
    cases h
    refine ⟨not_lt.mp hle, fun a => ?_⟩
    rw [Function.update_apply]
    by_cases hdst : a = dst
    · rw [if_pos hdst, if_pos hdst, ← hdst]
      by_cases hsrc : a = src
      · rw [if_pos hsrc, hsrc, Function.update_self]
        omega
      · rw [if_neg hsrc, Function.update_of_ne hsrc, add_zero]
    · rw [if_neg hdst, if_neg hdst, Function.update_apply]
      by_cases hsrc : a = src
      · rw [if_pos hsrc, if_pos hsrc, hsrc]
        omega
      · rw [if_neg hsrc, if_neg hsrc]

/-- A quarter of each payment goes to the provider. -/
def paidSchedule : List ArkivProtocolScheduleEntry :=
  [⟨0, { ArkivProtocolParams.default with payloadProviderPayment := ⟨true, 2500, 1⟩ }⟩]

def paidInput : PrecompileInput :=
  { callOf devCaller 5 [createOp] with schedule := paidSchedule }

def fundedWorld : World := World.genesis.setBalances fun a => if a = devCaller then 1000000 else 0

/-- Whether a batch is accepted. -/
def accepts (input : PrecompileInput) (w : World) (ops : List Operation) : Bool :=
  match executeOps input w ops with
  | .ok (.success _ _, _) => true
  | _ => false

theorem exists_of_accepts {input : PrecompileInput} {w : World} {ops : List Operation}
    (h : accepts input w ops = true) :
    ∃ gas ret w', executeOps input w ops = .ok (.success gas ret, w') := by
  unfold accepts at h
  split at h
  · next gas ret w' heq => exact ⟨gas, ret, w', heq⟩
  · cases h

/-- The fatal error in which a batch ends. -/
def fatalOf (input : PrecompileInput) (w : World) (ops : List Operation) : Option Fatal :=
  match executeOps input w ops with
  | .error (.fatal f) => some f
  | _ => none

theorem executeOps_of_fatalOf {input : PrecompileInput} {w : World} {ops : List Operation}
    {f : Fatal} (h : fatalOf input w ops = some f) : executeOps input w ops = .error (.fatal f) := by
  unfold fatalOf at h
  split at h
  · next f' heq => rw [heq, Option.some.inj h]
  · cases h

/-- A create with an attribute of a type that nobody knows. -/
def strangeOp : Operation :=
  { createOp with attributes := [⟨identOf "score", 99, oneWord 42⟩] }

end DevChain

theorem conserved_paidInput :
    (∃ w', Conserved DevChain.paidInput.context [DevChain.createOp] DevChain.fundedWorld w') ∧
      ∃ data, executeOps DevChain.paidInput World.genesis [DevChain.createOp] =
        .ok (.revert 0 data, World.genesis) := by
  have henabled : DevChain.paidInput.context.paymentParams.enabled = true := by decide
  have hshare : FairShare DevChain.paidInput.context := by
    unfold FairShare
    decide
  constructor
  · have haccepts : DevChain.accepts DevChain.paidInput DevChain.fundedWorld [DevChain.createOp] =
        true := by decide +kernel
    obtain ⟨gas, ret, w', h⟩ := DevChain.exists_of_accepts haccepts
    exact ⟨w', (conserved_executeOps _ _ _ henabled hshare).1 gas ret w' h⟩
  · have hsigned : signedPayment DevChain.paidInput.context DevChain.createOp =
        some DevChain.createAuth := by
      unfold signedPayment
      rw [if_pos (.inl rfl)]
      show (validatePayloadReference DevChain.createOp.payload devChainId).toOption = _
      rw [DevChain.auth_createOp]
      rfl
    have hpoor : World.genesis.balance DevChain.paidInput.caller <
        DevChain.paidInput.context.callerLoss DevChain.createAuth := by decide
    have hrejected := (conserved_executeOps _ World.genesis _ henabled hshare).2 []
      DevChain.createOp [] _ _ rfl rfl hsigned hpoor
    refine hrejected.2 (by decide +kernel) ?_ fun h => absurd h (by decide)
    intro a ha
    obtain rfl := List.mem_singleton.mp ha
    exact .inl rfl

/-- **A caller who cannot pay, and no revert**: the attributes are converted before the payment, and
    an unknown type of value is a fatal error. -/
theorem not_reverts_strangeOp :
    DevChain.paidInput.context.paymentParams.enabled = true ∧ FairShare DevChain.paidInput.context ∧
      totalGas [DevChain.strangeOp] ≤ DevChain.paidInput.gas ∧
      signedPayment DevChain.paidInput.context DevChain.strangeOp = some DevChain.createAuth ∧
      World.genesis.balance DevChain.paidInput.caller <
        DevChain.paidInput.context.callerLoss DevChain.createAuth ∧
      executeOps DevChain.paidInput World.genesis [DevChain.strangeOp] =
        .error (.fatal (.unknownValueType 99)) := by
  refine ⟨by decide, by unfold FairShare; decide, by decide +kernel, ?_, by decide, ?_⟩
  · unfold signedPayment
    rw [if_pos (.inl rfl)]
    show (validatePayloadReference DevChain.createOp.payload devChainId).toOption = _
    rw [DevChain.auth_createOp]
    rfl
  · have hfatal : DevChain.fatalOf DevChain.paidInput World.genesis [DevChain.strangeOp] =
        some (.unknownValueType 99) := by decide +kernel
    exact DevChain.executeOps_of_fatalOf hfatal

end Arkiv
