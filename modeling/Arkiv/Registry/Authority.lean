import Mathlib
import Arkiv.DevChain.Check

/-!
# Who may change a record

The record of a live entity changes only at the hands of its owner before it
expires, or of anybody who removes it afterwards. Creator, creation block and
key stay for life.

## Main definitions

- `Authority` — what the caller of an accepted operation has to be
- `Authorized` — the clauses for one operation
- `authorized_run` — they hold in every run
-/

namespace Arkiv

open ByteString

section Runs

variable [Host] {S : Scope} {chainId : UInt64}

/-- The caller owns the record before it expires, or removes it afterwards. -/
def Authority (c : OpCall) (e : EntityRlp) : Prop :=
  (c.op.operationType ∈ [opUpdate, opExtend, opTransfer, opDelete] ∧ c.ctx.caller = e.owner ∧
      c.ctx.currentBlock < e.expiresAt) ∨
    (c.op.operationType = opExpire ∧ e.expiresAt ≤ c.ctx.currentBlock)

/-- What one accepted operation does to the records of live entities. -/
structure Authorized (S : Scope) (chainId : UInt64) (x : OpTransition) : Prop where
  unchanged : ∀ a e, Live S chainId x.pre a e → x.post.code a = x.pre.code a ∨
    entityAddress x.label.op.entityKey = a ∧ Authority x.label e
  constant : ∀ a e e', Live S chainId x.pre a e → LiveAt x.post a e' →
    e'.creator = e.creator ∧ e'.createdAtBlock = e.createdAtBlock ∧ e'.key = e.key
  update : x.label.op.operationType = opUpdate → ∀ e,
    Live S chainId x.pre (entityAddress x.label.op.entityKey) e →
    ∃ e', LiveAt x.post (entityAddress x.label.op.entityKey) e' ∧ e'.owner = e.owner ∧
      e'.expiresAt = e.expiresAt
  extend : x.label.op.operationType = opExtend → ∀ e,
    Live S chainId x.pre (entityAddress x.label.op.entityKey) e →
    ∃ expiresAt block, LiveAt x.post (entityAddress x.label.op.entityKey)
        { e with expiresAt := expiresAt, lastModifiedAtBlock := block } ∧ e.expiresAt < expiresAt
  transfer : x.label.op.operationType = opTransfer → ∀ e,
    Live S chainId x.pre (entityAddress x.label.op.entityKey) e →
    ∃ owner block, LiveAt x.post (entityAddress x.label.op.entityKey)
        { e with owner := owner, lastModifiedAtBlock := block } ∧ owner ≠ 0 ∧ owner ≠ e.owner

variable {w w' : World} {c : OpCall} {h : History} {x : OpTransition}

theorem Effect.code_target {target : Address} {code : Bytes} {i : UInt64}
    {rem ins : List Annotation} {slots : List (SlotName × B256)} {event : EntityOperation}
    (heffect : Effect w w' target code i rem ins slots event) : w'.code target = code := by
  obtain ⟨u, v, -, -, hcode⟩ := heffect.edits
  rw [hcode, if_pos rfl]

theorem Effect.liveAt_target {target : Address} {e : EntityRlp} {i : UInt64}
    {rem ins : List Annotation} {slots : List (SlotName × B256)} {event : EntityOperation}
    (heffect : Effect w w' target e.encodeAsCode i rem ins slots event) (hwf : e.WellFormed) :
    LiveAt w' target e := by
  rw [LiveAt, heffect.code_target]
  exact EntityRlp.decodeFromCode_encodeAsCode hwf.fits

omit [Host] in
theorem OwnedBy.authority {e : EntityRlp} (ho : OwnedBy w c e)
    (htype : c.op.operationType ∈ [opUpdate, opExtend, opTransfer, opDelete]) : Authority c e :=
  .inl ⟨htype, ho.owner.symm, ho.alive⟩

/-- An accepted operation on an existing entity had the authority over it. -/
theorem Applied.authority (happ : Applied w c w') (hnc : c.op.operationType ≠ opCreate) :
    ∃ e, LiveAt w (entityAddress c.op.entityKey) e ∧ Authority c e := by
  cases happ with
  | create attributes auth htype hbtl href hnonce heffect => exact absurd htype hnc
  | update e attributes auth htype href howned heffect =>
    exact ⟨e, howned.load, howned.authority (by simp [htype])⟩
  | extend e htype hbtl howned hlater heffect =>
    exact ⟨e, howned.load, howned.authority (by simp [htype])⟩
  | transfer e htype howned hzero hself heffect =>
    exact ⟨e, howned.load, howned.authority (by simp [htype])⟩
  | delete e htype howned heffect => exact ⟨e, howned.load, howned.authority (by simp [htype])⟩
  | expire e htype hload hexpired heffect => exact ⟨e, hload, .inr ⟨htype, hexpired⟩⟩

/-- A record changes only at the target of an operation on existing entities. -/
theorem Made.code_eq_or_target (hmade : Made S chainId h x) {a : Address} {e : EntityRlp}
    (he : Live S chainId x.pre a e) :
    x.post.code a = x.pre.code a ∨ ¬x.IsCreate ∧ a = x.target := by
  cases hmade.change with
  | mint f hx hc =>
    have hne := hc.ne_of_live hmade.registered he
    exact .inl (by rw [hc.code a he.1, if_neg hne])
  | rewrite f f' hx hkeep hc =>
    by_cases heq : a = x.target
    · exact .inr ⟨hx, heq⟩
    · exact .inl (by rw [hc.code a he.1, if_neg heq])
  | remove f hx hc =>
    by_cases heq : a = x.target
    · exact .inr ⟨hx.not_isCreate, heq⟩
    · exact .inl (by rw [hc.code a he.1, if_neg heq])
  | outside f hx hload hc => exact .inl (hc.code a he.1)

/-- What stays of a record that is live before and after. -/
theorem Made.constant (hmade : Made S chainId h x) {a : Address} {e e' : EntityRlp}
    (he : Live S chainId x.pre a e) (he' : LiveAt x.post a e') :
    e'.creator = e.creator ∧ e'.createdAtBlock = e.createdAtBlock ∧ e'.key = e.key := by
  have hlive : Live S chainId x.post a e' := ⟨he.1, he'⟩
  cases hmade.change with
  | mint f hx hc =>
    rw [hc.live_iff, if_neg (hc.ne_of_live hmade.registered he)] at hlive
    obtain rfl := hlive.2.unique he.2
    exact ⟨rfl, rfl, rfl⟩
  | rewrite f f' hx hkeep hc =>
    rw [hc.live_iff] at hlive
    split at hlive
    · next heq =>
      subst heq hlive
      obtain rfl := hc.live.2.unique he.2
      exact ⟨hc.creator, hc.created, hc.key⟩
    · obtain rfl := hlive.2.unique he.2
      exact ⟨rfl, rfl, rfl⟩
  | remove f hx hc =>
    obtain rfl := (hc.live_iff.mp hlive).2.2.unique he.2
    exact ⟨rfl, rfl, rfl⟩
  | outside f hx hload hc =>
    obtain rfl := (hc.live_iff.mp hlive).2.unique he.2
    exact ⟨rfl, rfl, rfl⟩

/-- A live entity that is not removed stays live. -/
theorem Made.live_post (hmade : Made S chainId h x) {a : Address} {e : EntityRlp}
    (he : Live S chainId x.pre a e) (hkeep : ¬x.Removes a) : ∃ e', Live S chainId x.post a e' := by
  cases hmade.change with
  | mint f hx hc => exact ⟨e, hc.live_of_live hmade.registered he⟩
  | rewrite f f' hx hkeep hc => exact hc.exists_live_iff.mpr ⟨e, he⟩
  | remove f hx hc =>
    refine ⟨e, hc.live_iff.mpr ⟨?_, he⟩⟩
    rintro rfl
    exact hkeep hx
  | outside f hx hload hc => exact ⟨e, hc.live_iff.mpr he⟩

/-- The record that an accepted operation starts from is the live one, and well-formed. -/
theorem Made.owned (hmade : Made S chainId h x) {e f : EntityRlp} (howned : OwnedBy x.pre x.label f)
    (he : Live S chainId x.pre (entityAddress x.label.op.entityKey) e) : f = e ∧ e.WellFormed :=
  ⟨LiveAt.unique howned.load he.2, (hmade.registered.recorded _ e he).wellFormed⟩

theorem Made.authorized (hmade : Made S chainId h x) : Authorized S chainId x where
  unchanged a e he := by
    rcases hmade.code_eq_or_target he with heq | ⟨hnc, rfl⟩
    · exact .inl heq
    · obtain ⟨f, hf, hauth⟩ := hmade.applied.authority hnc
      have htarget := OpTransition.target_of_not hnc
      have hsame : e = f := he.2.unique (htarget ▸ hf)
      exact .inr ⟨htarget.symm, hsame ▸ hauth⟩
  constant a e e' he he' := hmade.constant he he'
  update ht e he := by
    cases hmade.applied with
    | update f attributes auth htype href howned heffect =>
      obtain ⟨rfl, -⟩ := hmade.owned howned he
      exact ⟨_, heffect.liveAt_target (wellFormed_updatedRecord f href), rfl, rfl⟩
    | create attributes auth htype => exact absurd (htype.symm.trans ht) (by decide)
    | extend f htype => exact absurd (htype.symm.trans ht) (by decide)
    | transfer f htype => exact absurd (htype.symm.trans ht) (by decide)
    | delete f htype => exact absurd (htype.symm.trans ht) (by decide)
    | expire f htype => exact absurd (htype.symm.trans ht) (by decide)
  extend ht e he := by
    cases hmade.applied with
    | extend f htype hbtl howned hlater heffect =>
      obtain ⟨rfl, hwf⟩ := hmade.owned howned he
      exact ⟨_, _, heffect.liveAt_target (hwf.mono rfl rfl rfl), hlater⟩
    | create attributes auth htype => exact absurd (htype.symm.trans ht) (by decide)
    | update f attributes auth htype => exact absurd (htype.symm.trans ht) (by decide)
    | transfer f htype => exact absurd (htype.symm.trans ht) (by decide)
    | delete f htype => exact absurd (htype.symm.trans ht) (by decide)
    | expire f htype => exact absurd (htype.symm.trans ht) (by decide)
  transfer ht e he := by
    cases hmade.applied with
    | transfer f htype howned hzero hself heffect =>
      obtain ⟨rfl, hwf⟩ := hmade.owned howned he
      exact ⟨_, _, heffect.liveAt_target (hwf.mono rfl rfl rfl), hzero, hself⟩
    | create attributes auth htype => exact absurd (htype.symm.trans ht) (by decide)
    | update f attributes auth htype => exact absurd (htype.symm.trans ht) (by decide)
    | extend f htype => exact absurd (htype.symm.trans ht) (by decide)
    | delete f htype => exact absurd (htype.symm.trans ht) (by decide)
    | expire f htype => exact absurd (htype.symm.trans ht) (by decide)

/-- A record that was live at some time and has not been removed since is live with the same
    creator, creation block and key. -/
def Steady (S : Scope) (chainId : UInt64) (w : World) (h : History) : Prop :=
  ∀ h₁ x h₂, h = h₁ ++ x :: h₂ → ∀ a e, Live S chainId x.pre a e → (∀ y ∈ x :: h₂, ¬y.Removes a) →
    ∃ e', Live S chainId w a e' ∧ e'.creator = e.creator ∧ e'.createdAtBlock = e.createdAtBlock ∧
      e'.key = e.key

/-- One operation on: the live record of before and the one of after. -/
theorem Steady.step (hq : Steady S chainId x.pre h) (hmade : Made S chainId h x) :
    Steady S chainId x.post (h ++ [x]) := by
  intro h₁ y h₂ heq a e he hkeep
  -- Either `y` is the last operation, or the record was live before that one.
  have hlast : ¬x.Removes a ∧ ∃ f, Live S chainId x.pre a f ∧ f.creator = e.creator ∧
      f.createdAtBlock = e.createdAtBlock ∧ f.key = e.key := by
    rcases Runs.snoc_eq_append_cons.mp heq with ⟨-, rfl, -⟩ | ⟨h₃, rfl, hh⟩
    · exact ⟨hkeep x (by simp), e, he, rfl, rfl, rfl⟩
    · refine ⟨hkeep x (by simp), hq h₁ y h₃ hh a e he fun u hu => hkeep u ?_⟩
      simp only [List.mem_cons, List.mem_append] at hu ⊢
      tauto
  obtain ⟨hx, f, hf, hcr, hcb, hk⟩ := hlast
  obtain ⟨g, hg⟩ := hmade.live_post hf hx
  obtain ⟨hcr', hcb', hk'⟩ := hmade.constant hf hg.2
  exact ⟨g, hg, hcr'.trans hcr, hcb'.trans hcb, hk'.trans hk⟩

theorem Steady.congr (hq : Steady S chainId w h)
    (hcode : ∀ a, S.EntityAt chainId a → w'.code a = w.code a) : Steady S chainId w' h := by
  intro h₁ x h₂ heq a e he hkeep
  obtain ⟨e', he', hsame⟩ := hq h₁ x h₂ heq a e he hkeep
  exact ⟨e', ⟨he'.1, (LiveAt.congr (hcode a he'.1) e').mpr he'.2⟩, hsame⟩

/-- **Authorization and immutability**: in every run each accepted operation has the authority
    over every record it changes and changes it as its type allows, and creator, creation block
    and key of an entity stay for life. -/
theorem authorized_run {steps : List Chain.Step} (hrun : Chain.AllowedRun chainId S.foreign steps)
    (hsound : SoundHistory S (Chain.run steps).history) :
    (∀ x ∈ (Chain.run steps).history, Authorized S chainId x) ∧
      Steady S chainId (Chain.run steps).world (Chain.run steps).history := by
  constructor
  · intro x hx
    obtain ⟨h₁, hmade⟩ := (registered_run hrun hsound).2.of_mem hx
    exact hmade.authorized
  · refine (sound_invariant (Q := Steady S chainId) ?_ (fun h x hmade _ hq => hq.step hmade)
      (fun w h addr acc _ _ hq ha => hq.congr (World.code_foreign ha))
      (fun w h f hq => hq.congr fun _ _ => rfl)
      (fun w h _ hq => hq.congr fun a _ => w.code_prune a) hrun hsound).2
    intro h₁ x h₂ heq
    simp at heq

end Runs

theorem authorized_tradeRun :
    (∀ x ∈ (Chain.run DevChain.tradeRun).history,
        Authorized DevChain.tradeScope devChainId x) ∧
      Steady DevChain.tradeScope devChainId (Chain.run DevChain.tradeRun).world
        (Chain.run DevChain.tradeRun).history :=
  authorized_run DevChain.facts_tradeRun.allowed DevChain.facts_tradeRun.sound

end Arkiv
