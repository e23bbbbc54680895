import Mathlib
import Arkiv.Model.Rpc
import Arkiv.Registry.Freshness
import Arkiv.Registry.IndexCoherence

/-!
# What the chain answers about itself

Each create adds one live entity and each deletion or expiry takes one away, and
nothing else does. The answer to `arkiv_getEntityCount` is that number, and the
answer to `nonces` the number of creates of one caller.

## Main definitions

- `removals` — how many deletions and expiries a history holds
- `liveIds` — the IDs of the live entities
- `entityCount_exact` — the entity count is the number of live entities
- `AsksNonces` — a call that asks for a nonce
- `nonces_exact` — the nonce of a caller is the number of its creates
-/

namespace Arkiv

open ByteString

section Runs

variable [Host] {S : Scope} {chainId : UInt64} {w w' : World} {h : History} {x : OpTransition}

/-- How many deletions and expiries a history holds. -/
def removals (h : History) : ℕ :=
  h.countP fun x => x.label.op.operationType = opDelete ∨ x.label.op.operationType = opExpire

omit [Host] in
theorem removals_snoc (h : History) (x : OpTransition) : removals (h ++ [x]) = removals h +
    if x.label.op.operationType = opDelete ∨ x.label.op.operationType = opExpire then 1 else 0 := by
  simp [removals, List.countP_append, List.countP_singleton]

/-- The IDs of the live entities. -/
def liveIds (S : Scope) (chainId : UInt64) (w : World) : Set UInt64 :=
  {i | ∃ e, LiveId S chainId w i e}

theorem liveIds_congr (hsame : SameRegistry S chainId w w') :
    liveIds S chainId w' = liveIds S chainId w := by
  ext i
  exact exists_congr fun e => LiveId.congr hsame.entity hsame.slot

theorem liveIds_genesis : liveIds S chainId World.genesis = ∅ := by
  apply Set.eq_empty_of_forall_notMem
  rintro i ⟨e, a, ha, -⟩
  exact not_liveAt_of_nil rfl e ha.2

theorem IdChange.liveIds_of_ne {i j : UInt64} {old new : Option EntityRlp}
    (hc : IdChange S chainId w w' i old new) (hj : j ≠ i) :
    j ∈ liveIds S chainId w' ↔ j ∈ liveIds S chainId w :=
  exists_congr fun e => hc.other j e hj

theorem IdChange.mem_liveIds {i : UInt64} {old new : Option EntityRlp}
    (hc : IdChange S chainId w w' i old new) :
    (i ∈ liveIds S chainId w ↔ old.isSome) ∧ (i ∈ liveIds S chainId w' ↔ new.isSome) :=
  ⟨(exists_congr hc.pre).trans Option.isSome_iff_exists.symm,
    (exists_congr hc.post).trans Option.isSome_iff_exists.symm⟩

/-- A fresh ID adds one. -/
theorem IdChange.ncard_mint {i : UInt64} {e : EntityRlp}
    (hc : IdChange S chainId w w' i none (some e)) :
    (liveIds S chainId w').ncard = (liveIds S chainId w).ncard + 1 := by
  have hfresh : i ∉ liveIds S chainId w := by simp [hc.mem_liveIds.1]
  have hset : liveIds S chainId w' = insert i (liveIds S chainId w) := by
    ext j
    rw [Set.mem_insert_iff]
    by_cases hj : j = i
    · rw [hj, hc.mem_liveIds.2]
      simp
    · rw [hc.liveIds_of_ne hj, or_iff_right hj]
  rw [hset, Set.ncard_insert_of_notMem hfresh]

theorem IdChange.ncard_rewrite {i : UInt64} {e e' : EntityRlp}
    (hc : IdChange S chainId w w' i (some e) (some e')) :
    liveIds S chainId w' = liveIds S chainId w := by
  ext j
  by_cases hj : j = i
  · rw [hj, hc.mem_liveIds.1, hc.mem_liveIds.2]
    rfl
  · exact hc.liveIds_of_ne hj

/-- A cleared ID takes one away. -/
theorem IdChange.ncard_remove {i : UInt64} {e : EntityRlp}
    (hc : IdChange S chainId w w' i (some e) none) :
    (liveIds S chainId w').ncard + 1 = (liveIds S chainId w).ncard := by
  have hmem : i ∈ liveIds S chainId w := by simp [hc.mem_liveIds.1]
  have hset : liveIds S chainId w' = liveIds S chainId w \ {i} := by
    ext j
    rw [Set.mem_sdiff, Set.mem_singleton_iff]
    by_cases hj : j = i
    · rw [hj, hc.mem_liveIds.2]
      simp
    · rw [hc.liveIds_of_ne hj, and_iff_left hj]
  rw [hset, Set.ncard_sdiff_singleton_add_one hmem]

/-- **Step**: what an accepted operation does to the number of live entities. -/
theorem Made.ncard_liveIds (hmade : Made S chainId h x) (hN : Numbered S chainId x.pre h)
    (honly : OnlyEntities S chainId x.pre)
    (hcount : (liveIds S chainId x.pre).ncard + removals h = creates h) :
    (liveIds S chainId x.post).ncard + removals (h ++ [x]) = creates (h ++ [x]) := by
  rw [removals_snoc, creates_snoc]
  cases hmade.edited honly with
  | mint e m hx hm hc heffect =>
    have hcard := (hc.idChange hmade.registered hN).ncard_mint
    have hkeep : ¬(x.label.op.operationType = opDelete ∨ x.label.op.operationType = opExpire) :=
      fun htype => OpTransition.not_isCreate_of_remove htype hx
    rw [if_pos hx, if_neg hkeep]
    omega
  | rewrite e e' rem ins slots hx htype hc hdiff hrepost hslots heffect =>
    have hsame := (hc.idChange hmade.registered hN).ncard_rewrite
    have hkeep : ∀ k ∈ [opUpdate, opExtend, opTransfer], ¬(k = opDelete ∨ k = opExpire) := by
      intro k hk
      simp only [List.mem_cons, List.not_mem_nil, or_false] at hk
      rcases hk with rfl | rfl | rfl <;> decide
    rw [if_neg hx, if_neg (hkeep _ htype), hsame]
    exact hcount
  | remove e hx hc heffect =>
    have hcard := (hc.idChange hmade.registered hN).ncard_remove
    rw [if_neg hx.not_isCreate, if_pos hx.1]
    omega

/-- The live entities and their IDs are one to one. -/
theorem Numbered.ncard_live (hN : Numbered S chainId w h) :
    {a | ∃ e, Live S chainId w a e}.ncard = (liveIds S chainId w).ncard := by
  have himage : readEntityId w '' {a | ∃ e, Live S chainId w a e} = liveIds S chainId w := by
    ext i
    constructor
    · rintro ⟨a, ⟨e, ha⟩, hid⟩
      exact ⟨e, a, ha, hid⟩
    · rintro ⟨e, a, ha, hid⟩
      exact ⟨a, ⟨e, ha⟩, hid⟩
  rw [← himage, Set.InjOn.ncard_image]
  rintro a ⟨e, ha⟩ b ⟨f, hb⟩ heq
  exact hN.distinct ha hb heq

/-- **The entity count is exact**: after every run with fewer than `2 ^ 64` creates in which only
    entities look like entities, `arkiv_getEntityCount` answers the number of live entities, which
    is the number of creates less that of deletions and expiries. -/
theorem entityCount_exact {steps : List Chain.Step}
    (hrun : Chain.AllowedRun chainId S.foreign steps)
    (hsound : SoundHistory S (Chain.run steps).history)
    (honly : OnlyEntitiesIn S chainId (Chain.run steps).history)
    (hlt : creates (Chain.run steps).history < 2 ^ 64) (hcovers : S.Covers annotAll []) :
    ∃ n, getEntityCount (Chain.run steps).world = .ok n ∧
      n.toNat = {a | ∃ e, Live S chainId (Chain.run steps).world a e}.ncard ∧
      n.toNat + removals (Chain.run steps).history = creates (Chain.run steps).history := by
  have hcount := entity_invariant
    (Q := fun w h => (liveIds S chainId w).ncard + removals h = creates h)
    (by rw [liveIds_genesis]; simp [removals, creates])
    (fun h x _ _ hmade hN honly hpre => hmade.ncard_liveIds hN honly hpre)
    (fun w w' h hsame hpre => by rw [liveIds_congr hsame]; exact hpre) hrun hsound honly hlt
  have hN := (numbered_run hrun hsound honly hlt).1
  have hholds := indexHolds_builtIn hrun hsound honly hlt
  have hall : annotAll ∈ builtInKeys ∧ annotAll ≠ annotKey := by decide
  obtain ⟨b, hb, hmem⟩ := hholds.pairs annotAll hall [] hcovers
  -- Everything that is live carries `$all`.
  have hids : (b.ids : Set UInt64) = liveIds S chainId (Chain.run steps).world := by
    ext i
    refine (hmem i).trans (mem_post_liveIndex.trans ⟨?_, ?_⟩)
    · rintro ⟨a, e, ha, hid, -⟩
      exact ⟨e, a, ha, hid⟩
    · rintro ⟨e, a, ha, hid⟩
      exact ⟨a, e, ha, hid, ⟨annotAll, [], false⟩, List.mem_append_left _ List.mem_cons_self,
        rfl, rfl⟩
  have hcard : b.ids.card = (liveIds S chainId (Chain.run steps).world).ncard := by
    rw [← hids, Set.ncard_coe_finset]
  have hn : (UInt64.ofNat b.ids.card).toNat = b.ids.card := UInt64.toNat_ofNat_of_lt' (by
    show _ < 2 ^ 64
    omega)
  refine ⟨b.len, ?_, ?_, ?_⟩
  · rw [getEntityCount, allEntities, hb]
    rfl
  · rw [Bitmap.len, hn, hcard, hN.ncard_live]
  · rw [Bitmap.len, hn, hcard, hcount]

/-- How many creates of the caller a history holds. -/
def createsBy (o : Address) (h : History) : ℕ :=
  h.countP fun x => decide x.IsCreate && decide (x.label.ctx.caller = o)

omit [Host] in
theorem createsBy_snoc (o : Address) (h : History) (x : OpTransition) :
    createsBy o (h ++ [x]) =
      createsBy o h + if x.IsCreate ∧ o = x.label.ctx.caller then 1 else 0 := by
  simp [createsBy, List.countP_append, List.countP_singleton, eq_comm (a := o)]

/-- A call that asks for the nonce of the owner; static calls may ask too. -/
structure AsksNonces (input : PrecompileInput) (owner : Address) : Prop where
  direct : input.targetAddress = input.bytecodeAddress
  value : input.value = 0
  selector : input.data.take 4 = noncesSelector
  owner : AbiDecoder.decodeNonces (input.data.drop 4) = some owner
  gas : gNonces ≤ input.gas

theorem AsksNonces.answer {input : PrecompileInput} {o : Address} (h : AsksNonces input o)
    (w : World) : arkivPrecompile input w = .ok (.success gNonces (some (readNonce w o)), w) := by
  have hlen : ¬input.data.length < 4 := by
    intro hlt
    have hlong := congrArg List.length h.selector
    rw [List.length_take, min_eq_right hlt.le] at hlong
    exact absurd hlong (ne_of_lt hlt)
  unfold arkivPrecompile
  rw [if_neg (not_not.mpr h.direct), if_neg (not_not.mpr h.value), if_neg hlen]
  dsimp only
  rw [if_pos h.selector]
  unfold dispatchNonces
  rw [if_neg (UInt64.not_lt.mpr h.gas), h.owner]

/-- **The nonce view is exact**: after every run, a call that asks for the nonce of an owner is
    answered with the number of creates of that owner that the chain has accepted, and leaves the
    world as it was. -/
theorem nonces_exact {steps : List Chain.Step} (hrun : Chain.AllowedRun chainId S.foreign steps)
    (hsound : SoundHistory S (Chain.run steps).history) {o : Address} (ho : .nonces o ∈ S.slots)
    {input : PrecompileInput} (hasks : AsksNonces input o) :
    ∃ n, arkivPrecompile input (Chain.run steps).world =
        .ok (.success gNonces (some n), (Chain.run steps).world) ∧
      n.toNat = createsBy o (Chain.run steps).history := by
  refine ⟨_, hasks.answer _, ?_⟩
  refine (sound_invariant (Q := fun w h => (readNonce w o).toNat = createsBy o h) rfl
    (fun h x hmade _ hpre => ?_) (fun w h addr acc _ _ hpre ha => ?_) (fun w h f hpre => hpre)
    (fun w h hR hpre => ?_) hrun hsound).2
  · rw [hmade.readNonce_eq ho, hpre, createsBy_snoc]
  · rwa [readNonce_congr (World.slot_foreign ha _)]
  · rwa [readNonce_congr (World.slot_prune hR.hosted _)]

end Runs

theorem entityCount_tradeRun : ∃ n,
    getEntityCount (Chain.run DevChain.tradeRun).world = .ok n ∧
    n.toNat = {a | ∃ e, Live DevChain.tradeScope devChainId (Chain.run DevChain.tradeRun).world
      a e}.ncard ∧
    n.toNat + removals (Chain.run DevChain.tradeRun).history =
      creates (Chain.run DevChain.tradeRun).history := by
  have hmem : ⟨annotAll, [], false⟩ ∈ DevChain.tradeAnnotations := List.mem_cons_self
  exact entityCount_exact DevChain.facts_tradeRun.allowed DevChain.facts_tradeRun.sound
    DevChain.facts_tradeRun.only DevChain.facts_tradeRun.creates (DevChain.covers_tradeScope hmem)

/-- Anyone asks for the nonce of the development caller. -/
def DevChain.noncesInput : PrecompileInput :=
  { callOf devBuyer 21 [] with
    isStatic := true
    data := noncesSelector ++ (List.replicate 12 0 ++ addressBytes devCaller) }

theorem nonces_tradeRun : ∃ n,
    arkivPrecompile DevChain.noncesInput (Chain.run DevChain.tradeRun).world =
      .ok (.success gNonces (some n), (Chain.run DevChain.tradeRun).world) ∧
    n.toNat = createsBy DevChain.devCaller (Chain.run DevChain.tradeRun).history := by
  have hslot : .nonces DevChain.devCaller ∈ DevChain.tradeScope.slots := by
    show _ ∈ DevChain.tradeSlots
    simp [DevChain.tradeSlots]
  exact nonces_exact DevChain.facts_tradeRun.allowed DevChain.facts_tradeRun.sound hslot
    ⟨rfl, rfl, by decide, by decide +kernel, by decide⟩

end Arkiv
