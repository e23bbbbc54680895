import Mathlib
import Arkiv.Lib.Run
import Arkiv.Model.Precompile

/-!
# Runs of the chain

The chain as a state machine: calls of the precompile, accounts that somebody
else deploys or changes, balances that move, and the pruning of empty accounts
at the end of a transaction. Next to the world it keeps the history of accepted
operations.

## Main definitions

- `OpCall`, `opStep` — one operation of a batch with its context
- `Chain.Step`, `Chain.step` — what happens on the chain
- `Chain.Allowed` — one chain ID, foreign accounts only at foreign addresses
- `Chain.invariant` — the induction over runs
-/

namespace Arkiv

open ByteString

/-- An operation with the context of the call it is part of. -/
structure OpCall where
  ctx : CallContext
  op : Operation
deriving DecidableEq

/-- An accepted operation between the worlds before and after it. -/
abbrev OpTransition := Runs.Transition World OpCall

abbrev History := List OpTransition

/-- EIP-161: no code, no balance and nonce zero. -/
def Account.isEmpty (acc : Account) : Bool := acc.nonce == 0 && acc.balance == 0 && acc.code == []

/-- Empty accounts go with their storage. -/
def World.prune (w : World) : World :=
  { w with accounts := fun a => if (w.accounts a).isEmpty then Account.absent else w.accounts a }

/-- Somebody else's account takes any form. -/
def World.setAccount (w : World) (addr : Address) (acc : Account) : World := w.modify addr fun _ => acc

variable [Host]

def opStep (w : World) (c : OpCall) : Except ApplyError World := applyOp c.ctx w c.op

/-- The operations that a call hands to `execute`. -/
def PrecompileInput.ops (input : PrecompileInput) : List OpCall :=
  if input.data.take 4 = executeSelector then
    ((AbiDecoder.decodeExecute (input.data.drop 4)).getD []).map (OpCall.mk input.context)
  else []

structure ChainState where
  world : World
  history : History

namespace Chain

inductive Step where
  /-- A call of the precompile, by any caller with any data. -/
  | call (input : PrecompileInput)
  /-- A contract deployed, a delegation set or storage written by somebody else. -/
  | foreign (addr : Address) (acc : Account)
  /-- Fees, rewards and plain transfers. -/
  | balances (f : Address → ℕ)
  | endOfTransaction

def genesis : ChainState := ⟨World.genesis, []⟩

/-- A call that does not succeed leaves the world as it was. -/
def step (s : ChainState) : Step → ChainState
  | .call input =>
    match arkivPrecompile input s.world with
    | .ok (.success _ _, w) => ⟨w, s.history ++ Runs.trace opStep s.world input.ops⟩
    | _ => s
  | .foreign addr acc => { s with world := s.world.setAccount addr acc }
  | .balances f => { s with world := s.world.setBalances f }
  | .endOfTransaction => { s with world := s.world.prune }

def run (steps : List Step) : ChainState := steps.foldl step genesis

/-- All calls are made on one chain, and others deploy and write only at `foreign` addresses. -/
def Allowed (chainId : UInt64) (foreign : Set Address) (_ : ChainState) : Step → Prop
  | .call input => input.chainId = chainId
  | .foreign addr _ => addr ∈ foreign
  | _ => True

/-- A run in which every step is allowed. -/
def AllowedRun (chainId : UInt64) (foreign : Set Address) (steps : List Step) : Prop :=
  Runs.Guarded step (Allowed chainId foreign) genesis steps

theorem executeOps_success {input : PrecompileInput} {w w' : World} {ops : List Operation}
    {gas : UInt64} {ret : Option UInt32}
    (h : executeOps input w ops = .ok (.success gas ret, w')) :
    applyOps input.context w ops = .ok w' := by
  unfold executeOps at h
  dsimp only at h
  split at h
  · simp [revert] at h
  split at h
  · simp at h
  cases hops : applyOps input.context w ops with
  | ok w₁ =>
    simp only [hops, Except.ok.injEq, Prod.mk.injEq] at h
    rw [h.2]
  | error e => cases e <;> simp [hops, revert] at h

theorem dispatchNonces_success {input : PrecompileInput} {w w' : World} {body : Bytes}
    {gas : UInt64} {ret : Option UInt32}
    (h : dispatchNonces input w body = .ok (.success gas ret, w')) : w' = w := by
  unfold dispatchNonces at h
  split at h
  · simp at h
  cases hd : AbiDecoder.decodeNonces body with
  | none => simp [hd, revert] at h
  | some owner =>
    simp only [hd, Except.ok.injEq, Prod.mk.injEq] at h
    exact h.2.symm

theorem dispatchExecute_success {input : PrecompileInput} {w w' : World} {body : Bytes}
    {gas : UInt64} {ret : Option UInt32}
    (h : dispatchExecute input w body = .ok (.success gas ret, w')) :
    ∃ ops, AbiDecoder.decodeExecute body = some ops ∧
      applyOps input.context w ops = .ok w' := by
  unfold dispatchExecute at h
  split at h
  · simp at h
  cases hd : AbiDecoder.decodeExecute body with
  | none => simp [hd, revert] at h
  | some ops =>
    simp only [hd] at h
    exact ⟨ops, rfl, executeOps_success h⟩

/-- A successful call is a batch of accepted operations. -/
theorem ops_of_success {input : PrecompileInput} {w w' : World} {gas : UInt64}
    {ret : Option UInt32} (h : arkivPrecompile input w = .ok (.success gas ret, w')) :
    input.ops.foldlM opStep w = .ok w' := by
  unfold arkivPrecompile at h
  dsimp only at h
  split at h
  · simp at h
  split at h
  · simp at h
  split at h
  · simp [revert] at h
  split at h
  · next hn =>
    have hops : input.ops = [] := by
      rw [PrecompileInput.ops, hn]
      rfl
    rw [hops, dispatchNonces_success h]
    rfl
  split at h
  · next he =>
    obtain ⟨ops, hd, hrun⟩ := dispatchExecute_success h
    have hops : input.ops = ops.map (OpCall.mk input.context) := by
      simp [PrecompileInput.ops, he, hd]
    rw [hops, List.foldlM_map]
    exact hrun
  · simp [revert] at h

theorem context_of_mem_ops {input : PrecompileInput} {c : OpCall} (h : c ∈ input.ops) :
    c.ctx = input.context := by
  unfold PrecompileInput.ops at h
  split_ifs at h
  · obtain ⟨op, -, rfl⟩ := List.mem_map.mp h
    rfl
  · simp at h

theorem step_call_cases (s : ChainState) (input : PrecompileInput) :
    step s (.call input) = s ∨
      ∃ w, input.ops.foldlM opStep s.world = .ok w ∧
        step s (.call input) = ⟨w, s.history ++ Runs.trace opStep s.world input.ops⟩ := by
  simp only [step]
  split
  · next gas ret w h => exact .inr ⟨w, ops_of_success h, rfl⟩
  · exact .inl rfl

theorem run_append (steps steps' : List Step) :
    run (steps ++ steps') = steps'.foldl step (run steps) := by
  rw [run, List.foldl_append, run]

/-- Histories only grow. -/
theorem history_prefix_step (s : ChainState) (i : Step) : s.history <+: (step s i).history := by
  cases i with
  | call input =>
    rcases step_call_cases s input with heq | ⟨w, -, heq⟩
    · rw [heq]
    · rw [heq]
      exact List.prefix_append _ _
  | foreign addr acc => exact List.prefix_rfl
  | balances f => exact List.prefix_rfl
  | endOfTransaction => exact List.prefix_rfl

theorem history_prefix (steps steps' : List Step) :
    (run steps).history <+: (run (steps ++ steps')).history := by
  induction steps' using List.reverseRecOn with
  | nil => rw [List.append_nil]
  | append_singleton steps' i ih =>
    rw [← List.append_assoc, run_append (steps ++ steps') [i]]
    exact ih.trans (history_prefix_step _ i)

/-- The history after a successful call. -/
theorem run_call_success {steps : List Step} {input : PrecompileInput} {w : World} {gas : UInt64}
    {ret : Option UInt32}
    (h : arkivPrecompile input (run steps).world = .ok (.success gas ret, w)) :
    run (steps ++ [.call input]) =
      ⟨w, (run steps).history ++ Runs.trace opStep (run steps).world input.ops⟩ := by
  rw [run_append, List.foldl_cons, List.foldl_nil, step, h]

/-- **Induction over runs**: a property of the world and the history that accepted operations,
    foreign accounts, balances and pruning keep holds after every allowed run. -/
theorem invariant {Q : World → History → Prop} {chainId : UInt64} {foreign : Set Address}
    (hgen : Q World.genesis [])
    (hop : ∀ w h c w', Q w h → c.ctx.chainId = chainId → opStep w c = .ok w' →
      Q w' (h ++ [⟨w, c, w'⟩]))
    (hforeign : ∀ w h addr acc, Q w h → addr ∈ foreign → Q (w.setAccount addr acc) h)
    (hbalances : ∀ w h f, Q w h → Q (w.setBalances f) h)
    (hprune : ∀ w h, Q w h → Q w.prune h)
    {steps : List Step} (hrun : AllowedRun chainId foreign steps) :
    Q (run steps).world (run steps).history := by
  refine Runs.Guarded.invariant (P := fun s => Q s.world s.history) ?_ hrun hgen
  rintro s (input | ⟨addr, acc⟩ | f | _) hs hall
  · rcases step_call_cases s input with heq | ⟨w, hw, heq⟩
    · rw [heq]
      exact hs
    · rw [heq]
      refine Runs.foldlM_invariant (fun w h w' c hc hQ hstep => ?_) hs hw
      refine hop w h c w' hQ ?_ hstep
      rw [context_of_mem_ops hc]
      exact hall
  · exact hforeign _ _ _ _ hs hall
  · exact hbalances _ _ _ hs
  · exact hprune _ _ hs

end Chain

end Arkiv
