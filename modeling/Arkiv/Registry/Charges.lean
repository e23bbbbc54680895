import Mathlib
import Arkiv.DevChain.Check

/-!
# What a batch is charged

The charge is computed from the calldata before any operation is applied. An
accepted batch reports it; a batch with a rejected operation reports nothing,
although even malformed operations have a price.

## Main definitions

- `Reports`, `Halts` — the outcomes of a call that pays
- `ChargedAlike` — two calls with one batch are charged what its calldata costs
- `AcceptsAll` — no operation of a batch is rejected
- `chargedAlike_iff` — when two calls are charged alike
-/

namespace Arkiv

open ByteString

/-- The outcome of a call reports a charge, in a success or in a revert. -/
inductive Reports (gas : UInt64) : PrecompileResult → Prop
  | success (ret : Option UInt32) (w : World) : Reports gas (.ok (.success gas ret, w))
  | revert (data : RevertError) (w : World) : Reports gas (.ok (.revert gas data, w))

def Halts (r : PrecompileResult) : Prop := ∃ w, r = .ok (.outOfGas, w)

/-- Both calls halt, if the gas does not cover the batch, or both report what it costs. -/
def ChargedAlike (ops : List Operation) (gas : UInt64) (r₁ r₂ : PrecompileResult) : Prop :=
  (gas < totalGas ops → Halts r₁ ∧ Halts r₂) ∧
    (¬gas < totalGas ops → Reports (totalGas ops) r₁ ∧ Reports (totalGas ops) r₂)

section Gas

theorem le_satAdd (a b : UInt64) : a ≤ satAdd a b := by
  rw [UInt64.le_iff_toNat_le]
  unfold satAdd
  split
  · next h =>
    rw [UInt64.toNat_add, Nat.mod_eq_of_lt h]
    exact Nat.le_add_right _ _
  · have hlt := a.toNat_lt
    show a.toNat ≤ 2 ^ 64 - 1
    omega

theorem base_le_totalGas (ops : List Operation) : gExecuteBase ≤ totalGas ops := by
  have hfold : ∀ (gs : List UInt64) (g : UInt64), g ≤ gs.foldl satAdd g := by
    intro gs
    induction gs with
    | nil => exact fun g => UInt64.le_refl g
    | cons g' gs ih => exact fun g => UInt64.le_trans (le_satAdd g g') (ih _)
  exact hfold _ _

/-- Every batch has a price. -/
theorem totalGas_ne_zero (ops : List Operation) : totalGas ops ≠ 0 := by
  intro h
  have hle := base_le_totalGas ops
  rw [h] at hle
  exact absurd hle (by decide)

end Gas

section Dispatch

variable [Host]

/-- No operation is rejected in the state that the ones before it leave. -/
def AcceptsAll (ctx : CallContext) (w : World) (ops : List Operation) : Prop :=
  ∀ before op after, ops = before ++ op :: after →
    ∀ w₁, applyOps ctx w before = .ok w₁ → ∃ w₂, applyOp ctx w₁ op = .ok w₂

variable {ctx : CallContext} {w : World} {ops : List Operation}

theorem acceptsAll_iff : AcceptsAll ctx w ops ↔ ∃ w', applyOps ctx w ops = .ok w' := by
  constructor
  · intro h
    -- Induction on the front of the batch that has been applied.
    have hfront : ∀ before after, ops = before ++ after → ∃ w', applyOps ctx w before = .ok w' := by
      intro before
      induction before using List.reverseRecOn with
      | nil => exact fun after _ => ⟨w, rfl⟩
      | append_singleton before op ih =>
        intro after heq
        rw [List.append_assoc, List.singleton_append] at heq
        obtain ⟨w₁, hw₁⟩ := ih (op :: after) heq
        obtain ⟨w₂, hw₂⟩ := h before op after heq w₁ hw₁
        refine ⟨w₂, ?_⟩
        rw [applyOps, List.foldlM_append]
        exact Runs.ok_bind.mpr ⟨w₁, hw₁, Runs.foldlM_cons_ok.mpr ⟨w₂, hw₂, rfl⟩⟩
    exact hfront ops [] (List.append_nil ops).symm
  · rintro ⟨w', hops⟩ before op after rfl w₁ hbefore
    rw [applyOps, List.foldlM_append] at hops
    obtain ⟨w₂, hbefore', hrest⟩ := Runs.ok_bind.mp hops
    obtain rfl : w₂ = w₁ := Except.ok.inj (hbefore'.symm.trans hbefore)
    obtain ⟨w₃, hop, -⟩ := Runs.foldlM_cons_ok.mp hrest
    exact ⟨w₃, hop⟩

/-- One call within its gas reports the charge when its batch is accepted. -/
theorem reports_executeOps_iff {input : PrecompileInput} (hne : ops ≠ [])
    (hgas : ¬input.gas < totalGas ops) :
    Reports (totalGas ops) (executeOps input w ops) ↔ AcceptsAll input.context w ops := by
  rw [acceptsAll_iff]
  unfold executeOps
  rw [if_neg hne]
  dsimp only
  rw [if_neg hgas]
  have hprice := totalGas_ne_zero ops
  cases happly : applyOps input.context w ops with
  | ok w' => exact iff_of_true (.success none w') ⟨w', rfl⟩
  | error e =>
    refine iff_of_false ?_ (by simp)
    -- A revert reports zero, which is no price; the other errors report nothing.
    cases e with
    | revert data =>
      intro h
      generalize totalGas ops = gas at h hprice
      cases h
      exact hprice rfl
    | fatal e => exact fun h => by cases h
    | panicked => exact fun h => by cases h

theorem halts_executeOps {input : PrecompileInput} (hne : ops ≠ [])
    (hgas : input.gas < totalGas ops) : Halts (executeOps input w ops) := by
  refine ⟨w, ?_⟩
  unfold executeOps
  rw [if_neg hne]
  exact if_pos hgas

theorem dispatchExecute_of_decode {input : PrecompileInput} {body : Bytes}
    (hstatic : input.isStatic = false) (hdecode : AbiDecoder.decodeExecute body = some ops) :
    dispatchExecute input w body = executeOps input w ops := by
  unfold dispatchExecute
  rw [if_neg (by simp [hstatic]), hdecode]

/-- **The charge of a batch** depends on nothing but its calldata, if the gas does not cover it or no
    operation is rejected: a rejected batch reports no gas. -/
theorem chargedAlike_iff {i₁ i₂ : PrecompileInput} {w₁ w₂ : World} {body : Bytes}
    (hdecode : AbiDecoder.decodeExecute body = some ops) (hne : ops ≠ [])
    (hstatic₁ : i₁.isStatic = false) (hstatic₂ : i₂.isStatic = false) (hgas : i₂.gas = i₁.gas) :
    ChargedAlike ops i₁.gas (dispatchExecute i₁ w₁ body) (dispatchExecute i₂ w₂ body) ↔
      i₁.gas < totalGas ops ∨
        AcceptsAll i₁.context w₁ ops ∧ AcceptsAll i₂.context w₂ ops := by
  rw [dispatchExecute_of_decode hstatic₁ hdecode, dispatchExecute_of_decode hstatic₂ hdecode]
  by_cases hlow : i₁.gas < totalGas ops
  · have hlow₂ : i₂.gas < totalGas ops := by rw [hgas]; exact hlow
    refine iff_of_true ⟨fun _ => ?_, fun h => absurd hlow h⟩ (.inl hlow)
    exact ⟨halts_executeOps hne hlow, halts_executeOps hne hlow₂⟩
  · have hlow₂ : ¬i₂.gas < totalGas ops := by rw [hgas]; exact hlow
    rw [or_iff_right hlow, ← reports_executeOps_iff hne hlow, ← reports_executeOps_iff hne hlow₂]
    constructor
    · intro h
      exact h.2 hlow
    · intro h
      exact ⟨fun h' => absurd h' hlow, fun _ => h⟩

end Dispatch

namespace DevChain

/-- The batch is accepted. -/
def acceptsOps (ctx : CallContext) (w : World) (ops : List Operation) : Bool :=
  match applyOps ctx w ops with
  | .ok _ => true
  | .error _ => false

theorem acceptsAll_of_acceptsOps {ctx : CallContext} {w : World} {ops : List Operation}
    (h : acceptsOps ctx w ops = true) : AcceptsAll ctx w ops := by
  rw [acceptsAll_iff]
  unfold acceptsOps at h
  split at h
  · next w' heq => exact ⟨w', heq⟩
  · cases h

/-- The state that the first create leaves. -/
def createdState : ChainState := batch Chain.genesis devCaller 5 [createOp]

/-- A delete of an entity that nobody has created. -/
def missingOp : Operation := plainOp opDelete 7 0 0

/-- The calldata of one operation, without its selector, is read back. -/
theorem decode_one (op : Operation) :
    AbiDecoder.decodeExecute (encodeExecute [op]) = some [op] :=
  decodeExecute_encodeExecute (encodeExecute_length_lt (by simp))

theorem not_acceptsAll_missingOp {ctx : CallContext} : ¬AcceptsAll ctx World.genesis [missingOp] := by
  intro h
  obtain ⟨w', hw'⟩ := h [] missingOp [] rfl World.genesis rfl
  have hrejected : applyOp ctx World.genesis missingOp = .error (notFoundRevert 7) := rfl
  rw [hrejected] at hw'
  cases hw'

end DevChain

/-- The same calldata from the first caller on the empty chain, and from the second caller in a
    later block on the state that the first one leaves. -/
theorem chargedAlike_createOp :
    ChargedAlike [DevChain.createOp] (DevChain.callOf DevChain.devCaller 5 []).gas
      (dispatchExecute (DevChain.callOf DevChain.devCaller 5 []) World.genesis
        (DevChain.encodeExecute [DevChain.createOp]))
      (dispatchExecute (DevChain.callOf DevChain.devBuyer 9 []) DevChain.createdState.world
        (DevChain.encodeExecute [DevChain.createOp])) := by
  have hfirst : DevChain.acceptsOps (DevChain.callOf DevChain.devCaller 5 []).context World.genesis
      [DevChain.createOp] = true := by decide +kernel
  have hsecond : DevChain.acceptsOps (DevChain.callOf DevChain.devBuyer 9 []).context
      DevChain.createdState.world [DevChain.createOp] = true := by decide +kernel
  have haccepts := And.intro (DevChain.acceptsAll_of_acceptsOps hfirst)
    (DevChain.acceptsAll_of_acceptsOps hsecond)
  have hgas : ∀ caller block, (DevChain.callOf caller block []).gas = 30000000 := fun _ _ => rfl
  exact (chargedAlike_iff (DevChain.decode_one DevChain.createOp) (by simp) rfl rfl
    ((hgas _ _).trans (hgas _ _).symm)).mpr (.inr haccepts)

/-- A delete that is rejected within its gas reports no gas, whatever it would have cost. -/
theorem not_chargedAlike_missingOp :
    AbiDecoder.decodeExecute (DevChain.encodeExecute [DevChain.missingOp]) =
        some [DevChain.missingOp] ∧
      ¬ChargedAlike [DevChain.missingOp] (DevChain.callOf DevChain.devCaller 5 []).gas
        (dispatchExecute (DevChain.callOf DevChain.devCaller 5 []) World.genesis
          (DevChain.encodeExecute [DevChain.missingOp]))
        (dispatchExecute (DevChain.callOf DevChain.devCaller 5 []) World.genesis
          (DevChain.encodeExecute [DevChain.missingOp])) := by
  have hdecode := DevChain.decode_one DevChain.missingOp
  refine ⟨hdecode, fun h => ?_⟩
  have hcover : ¬(DevChain.callOf DevChain.devCaller 5 []).gas < totalGas [DevChain.missingOp] := by
    decide +kernel
  obtain ⟨hreports, -⟩ := h.2 hcover
  rw [dispatchExecute_of_decode rfl hdecode, reports_executeOps_iff (by simp) hcover] at hreports
  exact DevChain.not_acceptsAll_missingOp hreports

end Arkiv
