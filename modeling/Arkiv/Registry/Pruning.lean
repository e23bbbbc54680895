import Mathlib
import Arkiv.DevChain.Check
import Arkiv.Registry.Handlers

/-!
# Pruning of empty accounts

At the end of a transaction accounts without nonce, balance and code go with
their storage. No account with registry data is among them, whatever collides:
every write of code and every write of a slot finds or leaves a nonce.

## Main definitions

- `World.Keeps` — what a change of the world owes to pruning
- `Unpruned` — what pruning spares after a run
- `unpruned_run` — it spares all registry data in every run
-/

namespace Arkiv

open ByteString

section Runs

/-- The system account has a nonce, or no slot. -/
def World.Hosts (w : World) : Prop := w.nonce systemAccountAddress = 0 → ∀ s, w.slot s = 0

/-- A change that takes no nonce away, gives one to every account whose code it changes, and one
    to the system account when it writes slots. -/
structure World.Keeps (w w' : World) : Prop where
  persists : ∀ a, w.nonce a ≠ 0 → w'.nonce a ≠ 0
  written : ∀ a, w'.code a ≠ w.code a → w'.nonce a ≠ 0
  hosts : w.Hosts → w'.Hosts

namespace World.Keeps

variable {w w' w'' : World}

theorem refl (w : World) : w.Keeps w := ⟨fun _ h => h, fun _ h => absurd rfl h, fun h => h⟩

theorem trans (h : w.Keeps w') (h' : w'.Keeps w'') : w.Keeps w'' where
  persists a ha := h'.persists a (h.persists a ha)
  written a ha := by
    by_cases hmid : w'.code a = w.code a
    · exact h'.written a (by rwa [hmid])
    · exact h'.persists a (h.written a hmid)
  hosts hw := h'.hosts (h.hosts hw)

theorem setCode (w : World) (a : Address) (c : Bytes) : w.Keeps (w.setCode a c) where
  persists b hb := nonce_setCode hb
  written b hb := by
    by_cases heq : b = a
    · subst heq
      show ((w.setCode b c).accounts b).nonce ≠ 0
      simp only [World.setCode, World.modify, Function.update_self]
      exact World.ensureNonceAtLeastOne_nonce _
    · exact absurd (World.code_setCode_of_ne _ _ _ _ heq) hb
  hosts hw h0 s := by
    rw [World.slot_setCode]
    refine hw ?_ s
    by_contra hne
    exact nonce_setCode hne h0

/-- A slot may be cleared at any time, and written once the system account persists. -/
theorem setSlot (w : World) (s v : B256) (h : v = 0 ∨ w.nonce systemAccountAddress ≠ 0) :
    w.Keeps (w.setSlot s v) where
  persists a ha := by rwa [World.nonce_setSlot]
  written a ha := absurd (World.code_setSlot _ _ _ _) ha
  hosts hw h0 t := by
    rw [World.nonce_setSlot] at h0
    rcases h with rfl | h
    · rw [World.slot_setSlot]
      split
      · rfl
      · exact hw h0 t
    · exact absurd h0 h

theorem ensureAccountPersists (w : World) (a : Address) : w.Keeps (w.ensureAccountPersists a) where
  persists b hb := World.nonce_ensureAccountPersists _ _ _ hb
  written b hb := absurd (World.code_ensureAccountPersists _ _ _) hb
  hosts hw h0 s := by
    rw [World.slot_ensureAccountPersists]
    refine hw ?_ s
    by_contra hne
    exact World.nonce_ensureAccountPersists _ _ _ hne h0

theorem log (w : World) (e : EntityOperation) : w.Keeps (w.log e) :=
  ⟨fun _ h => h, fun _ h => absurd rfl h, fun h => h⟩

end World.Keeps

variable [Host] {w w' : World}

omit [Host] in
theorem World.closed_keeps : World.Closed World.Keeps where
  refl := .refl
  trans := .trans
  setCode := .setCode
  setSlot := .setSlot
  ensureAccountPersists := .ensureAccountPersists
  log := .log

/-- A payment moves balances only. -/
theorem applyPayloadProviderPayment_keeps {ctx : CallContext} {auth : PayloadReferenceAuth}
    (h : applyPayloadProviderPayment ctx w auth = .ok w') : w.Keeps w' := by
  have hf := applyPayloadProviderPayment_frame h
  refine ⟨hf.persists, fun a ha => absurd (hf.code a (by simp)) ha, fun hw h0 s => ?_⟩
  rw [hf.slot]
  refine hw ?_ s
  by_contra hne
  exact hf.persists _ hne h0

/-- **Step**: every accepted operation keeps what pruning must not take, also where names
    collide. -/
theorem opStep_keeps {c : OpCall} (h : opStep w c = .ok w') : w.Keeps w' := by
  have hparts := opStep_parts World.closed_keeps h
  split at hparts
  · obtain ⟨w₁, auth, w₂, hbefore, -, hpay, hafter⟩ := hparts
    exact hbefore.trans ((applyPayloadProviderPayment_keeps hpay).trans hafter)
  · exact hparts

/-- What pruning spares: the system account with its slots, accounts with code, and every account
    whose code an accepted operation of the past has changed, also where it is a tombstone now. -/
structure Unpruned (foreign : Set Address) (w : World) (h : History) : Prop where
  system : (∃ s, w.slot s ≠ 0) → 1 ≤ w.nonce systemAccountAddress
  code : ∀ a ∉ foreign, w.code a ≠ [] → 1 ≤ w.nonce a
  written : ∀ x ∈ h, ∀ a ∉ foreign, x.post.code a ≠ x.pre.code a → 1 ≤ w.nonce a
  spared : ∀ a ∉ foreign, (a = systemAccountAddress ∧ ∃ s, w.slot s ≠ 0) ∨ w.code a ≠ [] ∨
    (∃ x ∈ h, x.post.code a ≠ x.pre.code a) → w.prune.accounts a = w.accounts a

omit [Host] in
theorem one_le_nonce_iff {a : Address} : 1 ≤ w.nonce a ↔ w.nonce a ≠ 0 := by
  rw [UInt64.le_iff_toNat_le, ne_eq, ← UInt64.toNat_inj]
  exact Nat.one_le_iff_ne_zero

omit [Host] in
theorem accounts_prune_of_nonce {a : Address} (h : 1 ≤ w.nonce a) :
    w.prune.accounts a = w.accounts a := by
  have hne : (w.accounts a).isEmpty = false := by
    have h0 : (w.accounts a).nonce ≠ 0 := one_le_nonce_iff.mp h
    simp [Account.isEmpty, h0]
  simp [World.prune, hne]

/-- The part of `Unpruned` that every step keeps. -/
structure Nonced (foreign : Set Address) (w : World) (h : History) : Prop where
  hosts : w.Hosts
  code : ∀ a ∉ foreign, w.code a ≠ [] → w.nonce a ≠ 0
  written : ∀ x ∈ h, ∀ a ∉ foreign, x.post.code a ≠ x.pre.code a → w.nonce a ≠ 0

variable {foreign : Set Address} {h : History}

omit [Host] in
theorem Nonced.unpruned (hN : Nonced foreign w h) : Unpruned foreign w h := by
  have hsystem : (∃ s, w.slot s ≠ 0) → 1 ≤ w.nonce systemAccountAddress := by
    rintro ⟨s, hs⟩
    exact one_le_nonce_iff.mpr fun h0 => hs (hN.hosts h0 s)
  have hcode : ∀ a ∉ foreign, w.code a ≠ [] → 1 ≤ w.nonce a := fun a ha hc =>
    one_le_nonce_iff.mpr (hN.code a ha hc)
  have hwritten : ∀ x ∈ h, ∀ a ∉ foreign, x.post.code a ≠ x.pre.code a → 1 ≤ w.nonce a :=
    fun x hx a ha hne => one_le_nonce_iff.mpr (hN.written x hx a ha hne)
  refine ⟨hsystem, hcode, hwritten, fun a ha hdata => accounts_prune_of_nonce ?_⟩
  rcases hdata with ⟨rfl, hs⟩ | hc | ⟨x, hx, hne⟩
  · exact hsystem hs
  · exact hcode a ha hc
  · exact hwritten x hx a ha hne

omit [Host] in
/-- A change that keeps code, slots and nonces outside the foreign addresses. -/
theorem Nonced.congr (hN : Nonced foreign w h) (hcode : ∀ a ∉ foreign, w'.code a = w.code a)
    (hslot : ∀ s, w'.slot s = w.slot s) (hnonce : ∀ a ∉ foreign, w'.nonce a = w.nonce a)
    (hsystem : systemAccountAddress ∉ foreign) : Nonced foreign w' h where
  hosts h0 s := by
    rw [hslot]
    rw [hnonce _ hsystem] at h0
    exact hN.hosts h0 s
  code a ha hc := by
    rw [hnonce a ha]
    rw [hcode a ha] at hc
    exact hN.code a ha hc
  written x hx a ha hne := by
    rw [hnonce a ha]
    exact hN.written x hx a ha hne

theorem Nonced.step (hN : Nonced foreign w h) {c : OpCall} (hstep : opStep w c = .ok w') :
    Nonced foreign w' (h ++ [⟨w, c, w'⟩]) := by
  have hk := opStep_keeps hstep
  refine ⟨hk.hosts hN.hosts, fun a ha hc => ?_, fun x hx a ha hne => ?_⟩
  · by_cases heq : w'.code a = w.code a
    · exact hk.persists a (hN.code a ha (by rwa [← heq]))
    · exact hk.written a heq
  · rcases List.mem_append.mp hx with hx | hx
    · exact hk.persists a (hN.written x hx a ha hne)
    · obtain rfl := List.mem_singleton.mp hx
      exact hk.written a hne

/-- **Pruning spares the registry**: after every run, in which others act outside the system
    account, empty accounts hold no registry data. -/
theorem unpruned_run {chainId : UInt64} {steps : List Chain.Step}
    (hsystem : systemAccountAddress ∉ foreign) (hrun : Chain.AllowedRun chainId foreign steps) :
    Unpruned foreign (Chain.run steps).world (Chain.run steps).history := by
  refine Nonced.unpruned (Chain.invariant (Q := Nonced foreign) ?_ ?_ ?_ ?_ ?_ hrun)
  · exact ⟨fun _ _ => rfl, fun _ _ hc => absurd rfl hc, by simp⟩
  · intro w h c w' hN _ hstep
    exact hN.step hstep
  · intro w h addr acc hN ha
    have hacc : ∀ a ∉ foreign, (w.setAccount addr acc).accounts a = w.accounts a := by
      rintro a ha' 
      apply World.accounts_setAccount_of_ne
      rintro rfl
      exact ha' ha
    refine hN.congr (fun a ha' => ?_) (fun s => ?_) (fun a ha' => ?_) hsystem
    · rw [World.code, hacc a ha', World.code]
    · rw [World.slot, World.storage, hacc _ hsystem, World.slot, World.storage]
    · rw [World.nonce, hacc a ha', World.nonce]
  · intro w h f hN
    exact hN.congr (fun _ _ => rfl) (fun _ => rfl) (fun _ _ => rfl) hsystem
  · intro w h hN
    exact hN.congr (fun a _ => w.code_prune a) (World.slot_prune hN.hosts)
      (fun a _ => w.nonce_prune a) hsystem

end Runs

theorem unpruned_tradeRun :
    Unpruned DevChain.tradeScope.foreign (Chain.run DevChain.tradeRun).world
      (Chain.run DevChain.tradeRun).history :=
  unpruned_run DevChain.tradeScope.foreign_not_system DevChain.facts_tradeRun.allowed

end Arkiv
