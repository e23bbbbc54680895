import Mathlib
import Arkiv.Registry.Edit
import Arkiv.Registry.IdMaps

/-!
# Freshness and finality

Keys come from nonces that only grow, IDs from a counter that only grows, so no
create repeats an address or an ID. What is removed stays away, and what has
expired can only be removed by an expiry.

## Main definitions

- `Lasting` — addresses, IDs, ends and expiries over a history
- `mintedKey_of_batch` — the keys of the creates of one batch
- `lasting_run` — both in every run
-/

namespace Arkiv

open ByteString

section Runs

variable [Host] {S : Scope} {chainId : UInt64} {w w' : World} {h : History} {x y z : OpTransition}

/-- An accepted operation moves the caller's nonce when it creates, and no other nonce. -/
theorem Made.readNonce_eq (hmade : Made S chainId h x) {o : Address} (ho : .nonces o ∈ S.slots) :
    (readNonce x.post o).toNat = (readNonce x.pre o).toNat +
      if x.IsCreate ∧ o = x.label.ctx.caller then 1 else 0 := by
  cases hmade.change with
  | mint e hx hc =>
    rw [hc.readNonce_eq ho]
    simp [hx]
  | rewrite e e' hx hkeep hc => simp [hc.readNonce_eq ho, hx]
  | remove e hx hc => simp [hc.readNonce_eq ho, hx.not_isCreate]
  | outside e hx hload hc => simp [hc.readNonce_eq ho, hx]

/-- An accepted create mints a record. -/
theorem Made.mint (hmade : Made S chainId h x) (hx : x.IsCreate) :
    ∃ e, MintChange S chainId x.pre x.post x.label.ctx e := by
  cases hmade.change with
  | mint e _ hc => exact ⟨e, hc⟩
  | rewrite e e' hnc => exact absurd hx hnc
  | remove e hr => exact absurd hx hr.not_isCreate
  | outside e hnc => exact absurd hx hnc

/-- An earlier create has another address. -/
theorem Made.target_ne (hmade : Made S chainId h x) (hx : x.IsCreate) (hz : z ∈ h)
    (hzc : z.IsCreate) : z.target ≠ x.target := by
  intro heq
  obtain ⟨e, hc⟩ := hmade.mint hx
  have hm := hmade.registered.minted z hz hzc
  rw [hc.target hx, hc.key_eq, OpTransition.target, if_pos hzc, mintedKey, hm.chain] at heq
  obtain ⟨hcaller, hnonce⟩ := Scope.entityAddress_inj hm.mem hc.mem heq
  have hlt := hm.nonce_lt
  rw [hnonce, hcaller] at hlt
  exact lt_irrefl _ hlt

/-- A live entity was created before. -/
theorem Made.created_of_live (hmade : Made S chainId h x) {a : Address} {e : EntityRlp}
    (he : Live S chainId x.pre a e) : ∃ z ∈ h, z.IsCreate ∧ z.target = a := by
  obtain ⟨h₁, z, h₂, rfl, hz, -⟩ := (hmade.registered.alive a he.1).mp ⟨e, he.2⟩
  exact ⟨z, by simp, hz⟩

/-- What is removed at an entity account was live. -/
theorem Made.live_of_removes (hmade : Made S chainId h x) {a : Address} (ha : S.EntityAt chainId a)
    (hx : x.Removes a) : ∃ e, Live S chainId x.pre a e := by
  obtain ⟨-, rfl⟩ := id hx
  cases hmade.change with
  | mint e hc => exact absurd hc hx.not_isCreate
  | rewrite e e' hnc hkeep => exact absurd hx (hkeep _)
  | remove e _ hc => exact ⟨e, hc.live⟩
  | outside e _ _ hc => exact absurd ha hc.outside

/-- **Finality**: after a removal no create brings the address back. -/
theorem not_aliveIn_of_removes (hall : Runs.AllSplits (Made S chainId) h) {h₁ h₂ : History}
    (heq : h = h₁ ++ x :: h₂) {a : Address} (ha : S.EntityAt chainId a) (hx : x.Removes a) :
    ¬AliveIn h a := by
  rintro ⟨k₁, y, k₂, heq', hy, hkeep⟩
  obtain ⟨e, he⟩ := (hall h₁ x h₂ heq).live_of_removes ha hx
  obtain ⟨z, hz, hzc, hza⟩ := (hall h₁ x h₂ heq).created_of_live he
  -- The creation would come after the removal, so it would repeat the address of `z`.
  rcases List.append_eq_append_iff.mp (heq.symm.trans heq') with
    ⟨m, rfl, hm⟩ | ⟨m, rfl, hm⟩
  · rcases List.cons_eq_append_iff.mp hm with ⟨rfl, hm⟩ | ⟨m', rfl, rfl⟩
    · obtain ⟨rfl, -⟩ := List.cons.inj hm
      exact hx.not_isCreate hy.1
    · exact (hall _ y k₂ heq').target_ne hy.1 (List.mem_append_left _ hz) hzc (hza.trans hy.2.symm)
  · rcases List.cons_eq_append_iff.mp hm with ⟨rfl, hm⟩ | ⟨m', rfl, rfl⟩
    · obtain ⟨rfl, -⟩ := List.cons.inj hm
      exact hx.not_isCreate hy.1
    · exact hkeep x (by simp) hx

/-- An operation on an expired record is an expiry, and leaves no other record in its place. -/
theorem Made.expired (hmade : Made S chainId h x) {a : Address} {e : EntityRlp}
    (he : Live S chainId x.pre a e) (hexp : e.expiresAt ≤ x.label.ctx.currentBlock) :
    (¬x.IsCreate → x.target = a → x.label.op.operationType = opExpire) ∧
      ∀ e', LiveAt x.post a e' → e' = e := by
  have hauth := hmade.authorized.unchanged a e he
  have hexpire : ¬x.IsCreate → x.target = a → x.label.op.operationType = opExpire := by
    rintro hnc rfl
    obtain ⟨f, hf, hauth⟩ := hmade.applied.authority hnc
    rw [OpTransition.target_of_not hnc] at he
    obtain rfl := he.2.unique hf
    rcases hauth with ⟨-, -, halive⟩ | ⟨htype, -⟩
    · exact absurd halive (UInt64.not_lt.mpr hexp)
    · exact htype
  refine ⟨hexpire, fun e' he' => ?_⟩
  rcases hmade.code_eq_or_target he with heq | ⟨hnc, rfl⟩
  · exact ((LiveAt.congr heq e').mp he').unique he.2
  · have hx : x.Removes x.target := ⟨.inr (hexpire hnc rfl), rfl⟩
    have hlive : Live S chainId x.post x.target e' := ⟨he.1, he'⟩
    cases hmade.change with
    | mint f hc => exact absurd hc hnc
    | rewrite f f' _ hkeep => exact absurd hx (hkeep _)
    | remove f _ hc => exact absurd rfl (hc.live_iff.mp hlive).1
    | outside f _ _ hc => exact absurd he.1 hc.outside

/-- The ID that a create gives its entity. -/
theorem Made.readEntityId_target (hmade : Made S chainId h x) (hx : x.IsCreate) :
    readEntityId x.post x.target = entityCount x.pre := by
  obtain ⟨e, hc⟩ := hmade.mint hx
  rw [hc.target hx, hc.readEntityId_new]

/-- The creates of a history, in order. -/
def createsOf (h : History) : History := h.filter fun x => x.IsCreate

/-- The creates of one call take the caller's nonces in order. -/
theorem readNonce_of_trace {ctx : CallContext} (hnonces : .nonces ctx.caller ∈ S.slots)
    {cs : List OpCall} (hctx : ∀ c ∈ cs, c.ctx = ctx)
    (hmade : ∀ x ∈ Runs.trace opStep w cs, ∃ h, Made S chainId h x)
    {i : ℕ} (hi : (createsOf (Runs.trace opStep w cs))[i]? = some x) :
    (readNonce x.pre x.label.ctx.caller).toNat = (readNonce w ctx.caller).toNat + i := by
  induction cs generalizing w i with
  | nil => simp [Runs.trace, createsOf] at hi
  | cons c cs ih =>
    cases hstep : opStep w c with
    | error err => simp [Runs.trace, hstep, createsOf] at hi
    | ok w₁ =>
      have htrace : Runs.trace opStep w (c :: cs) = ⟨w, c, w₁⟩ :: Runs.trace opStep w₁ cs := by
        simp [Runs.trace, hstep]
      rw [htrace] at hi hmade
      rw [createsOf] at hi
      have hc : c.ctx = ctx := hctx c List.mem_cons_self
      obtain ⟨h, hfirst⟩ := hmade _ List.mem_cons_self
      have hnonce := hfirst.readNonce_eq hnonces
      have ih' := @ih w₁ (fun d hd => hctx d (List.mem_cons_of_mem _ hd))
        fun y hy => hmade y (List.mem_cons_of_mem _ hy)
      by_cases hcreate : OpTransition.IsCreate ⟨w, c, w₁⟩
      · rw [List.filter_cons_of_pos (by simpa using hcreate)] at hi
        rw [if_pos ⟨hcreate, by rw [hc]⟩] at hnonce
        cases i with
        | zero =>
          obtain rfl := Option.some.inj hi
          rw [hc, Nat.add_zero]
        | succ i =>
          rw [ih' hi, hnonce]
          exact Nat.succ_add_eq_add_succ _ _
      · rw [List.filter_cons_of_neg (by simpa using hcreate)] at hi
        rw [if_neg fun hcon => hcreate hcon.1, Nat.add_zero] at hnonce
        rw [ih' hi, hnonce]

/-- What the creates of one successful call mint: keys that the caller's nonce before the call
    foretells. -/
def KeysForetold (s : ChainState) (input : PrecompileInput) : Prop :=
  ∀ i x, (createsOf (Runs.trace opStep s.world input.ops))[i]? = some x →
    ∃ n : UInt32, n.toNat = (readNonce s.world input.caller).toNat + i ∧
      ∃ e, LiveAt x.post (entityAddress (deriveEntityKey input.chainId input.caller n)) e ∧
        e.key = deriveEntityKey input.chainId input.caller n

/-- Addresses, IDs, ends and expiries over a history that led to the world. -/
structure Lasting (S : Scope) (chainId : UInt64) (w : World) (h : History) : Prop where
  addresses : h.Pairwise fun (y z : OpTransition) => y.IsCreate → z.IsCreate → y.target ≠ z.target
  ids : h.Pairwise fun (y z : OpTransition) => y.IsCreate → z.IsCreate →
    readEntityId y.post y.target ≠ readEntityId z.post z.target
  final : ∀ h₁ (x : OpTransition) h₂ a, h = h₁ ++ x :: h₂ → S.EntityAt chainId a → x.Removes a →
    (∀ e, ¬LiveAt w a e) ∧ ∀ y ∈ h₂, (∀ e, ¬LiveAt y.pre a e) ∧ ∀ e, ¬LiveAt y.post a e
  expired : ∀ h₁ (x : OpTransition) h₂ a e, h = h₁ ++ x :: h₂ → Live S chainId x.pre a e →
    e.expiresAt ≤ x.label.ctx.currentBlock → ∀ y ∈ x :: h₂, ¬y.IsCreate → y.target = a →
      y.label.op.operationType = opExpire

theorem keysForetold_of_success {steps : List Chain.Step} {input : PrecompileInput} {w' : World}
    {gas : UInt64} {ret : Option UInt32}
    (h : arkivPrecompile input (Chain.run steps).world = .ok (.success gas ret, w'))
    (hrun : Chain.AllowedRun chainId S.foreign (steps ++ [.call input]))
    (hsound : SoundHistory S (Chain.run (steps ++ [.call input])).history) :
    KeysForetold (Chain.run steps) input := by
  intro i x hi
  have hsplits := (registered_run hrun hsound).2
  have hhist := Chain.run_call_success h
  have hmem : ∀ y ∈ Runs.trace opStep (Chain.run steps).world input.ops,
      ∃ h, Made S chainId h y := fun y hy => by
    refine hsplits.of_mem ?_
    rw [hhist]
    exact List.mem_append_right _ hy
  have hx := List.mem_of_getElem? hi
  obtain ⟨hx, hcreate⟩ := List.mem_filter.mp hx
  have hcreate : x.IsCreate := by simpa using hcreate
  have hctx : x.label.ctx = input.context := Chain.context_of_mem_ops (Runs.of_mem_trace hx).2
  obtain ⟨k, hmade⟩ := hmem x hx
  obtain ⟨e, hc⟩ := hmade.mint hcreate
  have hnonces : .nonces input.context.caller ∈ S.slots := hctx ▸ hc.nonces_mem
  have hnonce := readNonce_of_trace hnonces (fun c hc => Chain.context_of_mem_ops hc) hmem hi
  have hkey : e.key =
      deriveEntityKey input.chainId input.caller (readNonce x.pre x.label.ctx.caller) := by
    rw [hc.key, mintedKey, hctx]
    rfl
  exact ⟨_, hnonce, e, hkey ▸ hc.live_new.2, hkey⟩

/-- No create of a history repeats an address. -/
theorem pairwise_target_ne (hall : Runs.AllSplits (Made S chainId) h) :
    h.Pairwise fun (y z : OpTransition) => y.IsCreate → z.IsCreate → y.target ≠ z.target := by
  induction h using List.reverseRecOn with
  | nil => exact .nil
  | append_singleton h x ih =>
    refine List.pairwise_append.mpr ⟨ih hall.init, List.pairwise_singleton _ _, ?_⟩
    intro y hy z hz hyc hzc
    rw [List.mem_singleton.mp hz] at hzc ⊢
    exact (hall h x [] rfl).target_ne hzc hy hyc

/-- No create of a history repeats an ID while IDs last. -/
theorem pairwise_id_ne (hall : Runs.AllSplits (Made S chainId) h)
    (hcounted : Runs.AllSplits (fun h (x : OpTransition) => Counted x.pre h) h) :
    h.Pairwise fun (y z : OpTransition) => y.IsCreate → z.IsCreate →
      readEntityId y.post y.target ≠ readEntityId z.post z.target := by
  induction h using List.reverseRecOn with
  | nil => exact .nil
  | append_singleton h x ih =>
    refine List.pairwise_append.mpr ⟨ih hall.init hcounted.init, List.pairwise_singleton _ _, ?_⟩
    intro y hy z hz hyc hzc heq
    rw [List.mem_singleton.mp hz] at hzc heq
    obtain ⟨k, hmade⟩ := hall.of_mem (List.mem_append_left [x] hy)
    have hN := hcounted h x [] rfl
    have hlt := hN.spent y hy hyc
    rw [hmade.readEntityId_target hyc, (hall h x [] rfl).readEntityId_target hzc] at heq
    rw [heq, hN.count] at hlt
    exact lt_irrefl _ hlt

/-- What is live after an operation was live before, or is new. -/
theorem Made.live_of_live_post (hmade : Made S chainId h x) {a : Address} {e' : EntityRlp}
    (he' : Live S chainId x.post a e') : x.Mints a ∨ ∃ e, Live S chainId x.pre a e := by
  have hlast := (hmade.registered'.alive a he'.1).mp ⟨e', he'.2⟩
  rcases aliveIn_snoc.mp hlast with hm | ⟨halive, -⟩
  · exact .inl hm
  · obtain ⟨e, he⟩ := (hmade.registered.alive a he'.1).mpr halive
    exact .inr ⟨e, he'.1, he⟩

/-- The block numbers of accepted operations do not decrease. -/
def BlocksOrdered (h : History) : Prop :=
  h.Pairwise fun (y z : OpTransition) => y.label.ctx.currentBlock ≤ z.label.ctx.currentBlock

/-- What an expired entity has left: expiries only, and no other record at its account. -/
def Expiring (S : Scope) (chainId : UInt64) (w : World) (h : History) : Prop :=
  ∀ h₁ (x : OpTransition) h₂ a e, h = h₁ ++ x :: h₂ → Live S chainId x.pre a e →
    e.expiresAt ≤ x.label.ctx.currentBlock →
    (∀ y ∈ x :: h₂, ¬y.IsCreate → y.target = a → y.label.op.operationType = opExpire) ∧
      ∀ e', LiveAt w a e' → e' = e

/-- **Step**: the next operation keeps what holds of expired entities. -/
theorem Expiring.step (hE : Expiring S chainId x.pre h) (hmade : Made S chainId h x)
    (hall : Runs.AllSplits (Made S chainId) h) (hblocks : BlocksOrdered (h ++ [x])) :
    Expiring S chainId x.post (h ++ [x]) := by
  intro h₁ y h₂ a e heq he hexp
  rcases Runs.snoc_eq_append_cons.mp heq with ⟨rfl, rfl, rfl⟩ | ⟨h₃, rfl, rfl⟩
  · obtain ⟨hexpire, hsame⟩ := hmade.expired he hexp
    refine ⟨fun z hz => ?_, hsame⟩
    rw [List.mem_singleton.mp hz]
    exact hexpire
  · obtain ⟨hearlier, hsame⟩ := hE h₁ y h₃ a e rfl he hexp
    have hle : y.label.ctx.currentBlock ≤ x.label.ctx.currentBlock :=
      (List.pairwise_append.mp hblocks).2.2 y (by simp) x (by simp)
    -- Either the record is still there, or no create brings the account back.
    by_cases hlive : ∃ f, Live S chainId x.pre a f
    · obtain ⟨f, hf⟩ := hlive
      obtain rfl := hsame f hf.2
      obtain ⟨hexpire, hsame'⟩ := hmade.expired hf (UInt64.le_trans hexp hle)
      refine ⟨fun z hz => ?_, hsame'⟩
      rcases List.mem_cons.mp hz with rfl | hz
      · exact hearlier z List.mem_cons_self
      · rcases List.mem_append.mp hz with hz | hz
        · exact hearlier z (List.mem_cons_of_mem _ hz)
        · rw [List.mem_singleton.mp hz]
          exact hexpire
    · refine ⟨fun z hz hnc hza => ?_, fun e' he' => ?_⟩
      · rcases List.mem_cons.mp hz with rfl | hz
        · exact hearlier z List.mem_cons_self hnc hza
        rcases List.mem_append.mp hz with hz | hz
        · exact hearlier z (List.mem_cons_of_mem _ hz) hnc hza
        · rw [List.mem_singleton.mp hz] at hnc hza
          obtain ⟨f, hf, -⟩ := hmade.applied.authority hnc
          rw [← OpTransition.target_of_not hnc, hza] at hf
          exact absurd ⟨f, he.1, hf⟩ hlive
      · rcases hmade.live_of_live_post ⟨he.1, he'⟩ with hm | hpre
        · obtain ⟨z, hz, hzc, hza⟩ := (hall h₁ y h₃ rfl).created_of_live he
          exact absurd (hza.trans hm.2.symm)
            (hmade.target_ne hm.1 (List.mem_append_left _ hz) hzc)
        · exact absurd hpre hlive

theorem Expiring.congr (hE : Expiring S chainId w h)
    (hcode : ∀ a, S.EntityAt chainId a → w'.code a = w.code a) : Expiring S chainId w' h := by
  intro h₁ x h₂ a e heq he hexp
  obtain ⟨hops, hsame⟩ := hE h₁ x h₂ a e heq he hexp
  exact ⟨hops, fun e' he' => hsame e' ((LiveAt.congr (hcode a he.1) e').mp he')⟩

theorem expiring_run {steps : List Chain.Step} (hrun : Chain.AllowedRun chainId S.foreign steps)
    (hsound : SoundHistory S (Chain.run steps).history)
    (hblocks : BlocksOrdered (Chain.run steps).history) :
    Expiring S chainId (Chain.run steps).world (Chain.run steps).history := by
  have hall := sound_invariant (Q := fun w h => BlocksOrdered h →
      Runs.AllSplits (Made S chainId) h ∧ Expiring S chainId w h)
    (fun _ => ⟨.nil, fun h₁ x h₂ a e heq => by simp at heq⟩) (fun h x hmade _ hQ hblocks => ?_)
    (fun w h addr acc _ _ hQ ha hb => (hQ hb).imp_right fun hE => hE.congr (World.code_foreign ha))
    (fun w h f hQ hb => (hQ hb).imp_right fun hE => hE.congr fun _ _ => rfl)
    (fun w h _ hQ hb => (hQ hb).imp_right fun hE => hE.congr fun a _ => w.code_prune a) hrun hsound
  · exact (hall.2 hblocks).2
  · obtain ⟨hsplits, hE⟩ := hQ (List.pairwise_append.mp hblocks).1
    exact ⟨hsplits.snoc hmade, hE.step hmade hsplits hblocks⟩

/-- No record comes back to the account of a removed entity: not in the worlds before and after
    later operations, and not in the last one. -/
theorem not_liveAt_of_removes (hR : Registered S chainId w h)
    (hall : Runs.AllSplits (Made S chainId) h) {h₁ h₂ : History} (heq : h = h₁ ++ x :: h₂)
    {a : Address} (ha : S.EntityAt chainId a) (hx : x.Removes a) :
    (∀ e, ¬LiveAt w a e) ∧ ∀ y ∈ h₂, (∀ e, ¬LiveAt y.pre a e) ∧ ∀ e, ¬LiveAt y.post a e := by
  have hdead : ∀ {v : World} {k : History}, Registered S chainId v k →
      ¬AliveIn k a → ∀ e, ¬LiveAt v a e := fun hR hno e he => hno ((hR.alive a ha).mp ⟨e, he⟩)
  refine ⟨hdead hR (not_aliveIn_of_removes hall heq ha hx), fun y hy => ?_⟩
  obtain ⟨k₁, k₂, rfl⟩ := List.append_of_mem hy
  have heq' : h = (h₁ ++ x :: k₁) ++ y :: k₂ := by rw [heq, List.append_assoc, List.cons_append]
  have hsnoc : (h₁ ++ x :: k₁) ++ [y] = h₁ ++ x :: (k₁ ++ [y]) := by
    rw [List.append_assoc, List.cons_append]
  have hmade := hall _ y k₂ heq'
  have hpre : Runs.AllSplits (Made S chainId) (h₁ ++ x :: k₁) := by
    rw [heq'] at hall
    exact hall.init
  exact ⟨hdead hmade.registered (not_aliveIn_of_removes hpre rfl ha hx),
    hdead hmade.registered' (not_aliveIn_of_removes (hpre.snoc hmade) hsnoc ha hx)⟩

/-- **Freshness and finality**: in every run over non-decreasing blocks with fewer than `2 ^ 64`
    creates, a successful call mints the keys that the caller's nonce foretells, no create repeats
    an address or an ID, what is removed never comes back, and what has expired is only removed
    by an expiry. -/
theorem lasting_run {steps : List Chain.Step} (hrun : Chain.AllowedRun chainId S.foreign steps)
    (hsound : SoundHistory S (Chain.run steps).history)
    (hblocks : BlocksOrdered (Chain.run steps).history)
    (hlt : creates (Chain.run steps).history < 2 ^ 64) :
    Lasting S chainId (Chain.run steps).world (Chain.run steps).history ∧
      ∀ before input after gas ret w', steps = before ++ .call input :: after →
        arkivPrecompile input (Chain.run before).world = .ok (.success gas ret, w') →
        KeysForetold (Chain.run before) input := by
  obtain ⟨hR, hall⟩ := registered_run hrun hsound
  have hcounted := (counted_run hrun hsound hlt).2
  refine ⟨⟨pairwise_target_ne hall, pairwise_id_ne hall hcounted, ?final, ?expired⟩, ?keys⟩
  case final =>
    intro h₁ x h₂ a heq ha hx
    exact not_liveAt_of_removes hR hall heq ha hx
  case expired =>
    intro h₁ x h₂ a e heq he hexp
    exact (expiring_run hrun hsound hblocks h₁ x h₂ a e heq he hexp).1
  case keys =>
    rintro before input after gas ret w' rfl hsuccess
    rw [List.append_cons] at hrun hsound
    exact keysForetold_of_success hsuccess (Runs.guarded_append.mp hrun).1 fun x hx =>
      hsound x ((Chain.history_prefix _ after).subset hx)

end Runs

theorem lasting_tradeRun :
    Lasting DevChain.tradeScope devChainId (Chain.run DevChain.tradeRun).world
        (Chain.run DevChain.tradeRun).history ∧
      ∀ before input after gas ret w', DevChain.tradeRun = before ++ .call input :: after →
        arkivPrecompile input (Chain.run before).world = .ok (.success gas ret, w') →
        KeysForetold (Chain.run before) input :=
  lasting_run DevChain.facts_tradeRun.allowed DevChain.facts_tradeRun.sound
    DevChain.facts_tradeRun.blocks DevChain.facts_tradeRun.creates

end Arkiv
