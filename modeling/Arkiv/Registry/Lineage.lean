import Mathlib
import Arkiv.Registry.Charges
import Arkiv.Registry.Freshness
import Arkiv.Registry.Machine

/-!
# The life of a record

Between two moments of a run the record under an ID keeps its address, its key,
its creator and its block of creation, and its expiry and its last change only
move forward. What a record says of its times is in order.

## Main definitions

- `Lineage` — what a record keeps and what only grows
- `Registry.Moves` — what one step of the machine does to its entries
- `Registry.Orderly` — IDs are used once and the times of a record are in order
- `lineage_run`, `clock_run` — both along every run
-/

namespace Arkiv

open ByteString

/-- The later record of one entity. -/
structure Lineage (e e' : EntityRlp) : Prop where
  key : e'.key = e.key
  creator : e'.creator = e.creator
  created : e'.createdAtBlock = e.createdAtBlock
  expires : e.expiresAt ≤ e'.expiresAt
  modified : e.lastModifiedAtBlock ≤ e'.lastModifiedAtBlock

theorem Lineage.refl (e : EntityRlp) : Lineage e e :=
  ⟨rfl, rfl, rfl, UInt64.le_refl _, UInt64.le_refl _⟩

theorem Lineage.trans {e f g : EntityRlp} (h : Lineage e f) (h' : Lineage f g) : Lineage e g :=
  ⟨h'.key.trans h.key, h'.creator.trans h.creator, h'.created.trans h.created,
    UInt64.le_trans h.expires h'.expires, UInt64.le_trans h.modified h'.modified⟩

/-- The times of a record are in order. -/
structure Clocked (block : UInt64) (e : EntityRlp) : Prop where
  created : e.createdAtBlock ≤ e.lastModifiedAtBlock
  modified : e.lastModifiedAtBlock ≤ block
  expires : e.lastModifiedAtBlock ≤ e.expiresAt

theorem Clocked.mono {b b' : UInt64} {e : EntityRlp} (h : Clocked b e) (hb : b ≤ b') :
    Clocked b' e :=
  ⟨h.created, UInt64.le_trans h.modified hb, h.expires⟩

namespace Registry

section Machine

variable [Host] {R R' : Registry} {c : OpCall} {block : UInt64}

/-- What one step does to the entries: a new number, a later record or one entry less. -/
inductive Moves (R : Registry) (c : OpCall) (R' : Registry) : Prop where
  | mint (e : EntityRlp) (hclock : Clocked c.ctx.currentBlock e)
      (hcount : R'.count = R.count + 1)
      (hentries : R'.entries = Function.update R.entries (entityAddress e.key) (some (R.count, e)))
  | rewrite (a : Address) (i : ℕ) (e e' : EntityRlp) (hentry : R.entries a = some (i, e))
      (hlater : e.lastModifiedAtBlock ≤ c.ctx.currentBlock → Lineage e e')
      (hclock : e.createdAtBlock ≤ c.ctx.currentBlock → Clocked c.ctx.currentBlock e')
      (hcount : R'.count = R.count)
      (hentries : R'.entries = Function.update R.entries a (some (i, e')))
  | remove (a : Address) (hcount : R'.count = R.count)
      (hentries : R'.entries = Function.update R.entries a none)

theorem moves_create (h : R.nextCreate c = some R') : R.Moves c R' := by
  unfold nextCreate at h
  split at h
  · cases h
  · obtain ⟨p, -, rfl⟩ := Option.map_eq_some_iff.mp h
    exact .mint (R.newRecord c p.1 p.2)
      ⟨UInt64.le_refl _, UInt64.le_refl _, le_satAdd _ _⟩ rfl rfl

theorem moves_update {a : Address} (h : R.nextUpdate c a = some R') : R.Moves c R' := by
  obtain ⟨⟨i, e⟩, howned, h⟩ := Option.bind_eq_some_iff.mp h
  obtain ⟨p, -, rfl⟩ := Option.map_eq_some_iff.mp h
  obtain ⟨hentry, -, halive⟩ := owned_some howned
  exact .rewrite a i e (updatedRecord e c p.1 p.2) hentry
    (fun hle => ⟨rfl, rfl, rfl, UInt64.le_refl _, hle⟩)
    (fun hle => ⟨hle, UInt64.le_refl _, UInt64.le_of_lt halive⟩) rfl rfl

omit [Host] in
theorem moves_extend {a : Address} (h : R.nextExtend c a = some R') : R.Moves c R' := by
  obtain ⟨⟨i, e⟩, howned, h⟩ := Option.bind_eq_some_iff.mp h
  obtain ⟨hentry, -, halive⟩ := owned_some howned
  split at h
  · next hlater =>
    obtain rfl := Option.some.inj h
    exact .rewrite a i e (extendedRecord e c) hentry
      (fun hle => ⟨rfl, rfl, rfl, UInt64.le_of_lt hlater.2, hle⟩)
      (fun hle => ⟨hle, UInt64.le_refl _, UInt64.le_of_lt (UInt64.lt_trans halive hlater.2)⟩)
      rfl rfl
  · cases h

omit [Host] in
theorem moves_transfer {a : Address} (h : R.nextTransfer c a = some R') : R.Moves c R' := by
  obtain ⟨⟨i, e⟩, howned, h⟩ := Option.bind_eq_some_iff.mp h
  obtain ⟨hentry, -, halive⟩ := owned_some howned
  split at h
  · obtain rfl := Option.some.inj h
    exact .rewrite a i e (transferredRecord e c) hentry
      (fun hle => ⟨rfl, rfl, rfl, UInt64.le_refl _, hle⟩)
      (fun hle => ⟨hle, UInt64.le_refl _, UInt64.le_of_lt halive⟩) rfl rfl
  · cases h

omit [Host] in
theorem moves_expire {a : Address} (h : R.nextExpire c a = some R') : R.Moves c R' := by
  obtain ⟨entry, -, h⟩ := Option.bind_eq_some_iff.mp h
  split at h
  · obtain rfl := Option.some.inj h
    exact .remove a rfl rfl
  · cases h

/-- **Inversion**: the six operations move the entries in three ways. -/
theorem moves_of_next (h : R.next c = some R') : R.Moves c R' := by
  unfold next at h
  split at h
  · exact moves_create h
  split at h
  · exact moves_update h
  split at h
  · exact moves_extend h
  split at h
  · exact moves_transfer h
  split at h
  · obtain ⟨_, -, rfl⟩ := Option.map_eq_some_iff.mp h
    exact .remove _ rfl rfl
  split at h
  · exact moves_expire h
  · cases h

/-- IDs are below the counter and used once, and the times of the records are in order. -/
structure Orderly (block : UInt64) (R : Registry) : Prop where
  below : ∀ a i e, R.entries a = some (i, e) → i < R.count
  distinct : ∀ a b i e f, R.entries a = some (i, e) → R.entries b = some (i, f) → a = b
  clocked : ∀ a i e, R.entries a = some (i, e) → Clocked block e

omit [Host] in
theorem orderly_empty (block : UInt64) : Orderly block empty :=
  ⟨fun _ _ _ h => (by cases h), fun _ _ _ _ _ h => (by cases h), fun _ _ _ h => (by cases h)⟩

omit [Host] in
/-- An entry after a step is the new one or an old one at another address. -/
theorem entries_update {E : Address → Option (ℕ × EntityRlp)} {a b : Address}
    {entry : Option (ℕ × EntityRlp)} {p : ℕ × EntityRlp}
    (h : Function.update E a entry b = some p) : b = a ∧ entry = some p ∨ b ≠ a ∧ E b = some p := by
  by_cases hb : b = a
  · subst hb
    rw [Function.update_self] at h
    exact .inl ⟨rfl, h⟩
  · rw [Function.update_of_ne hb] at h
    exact .inr ⟨hb, h⟩

/-- **Step**: order is kept while blocks do not decrease. -/
theorem Orderly.next (h : Orderly block R) (hblock : block ≤ c.ctx.currentBlock)
    (hnext : R.next c = some R') : Orderly c.ctx.currentBlock R' := by
  have hold : ∀ a i e, R.entries a = some (i, e) → Clocked c.ctx.currentBlock e :=
    fun a i e he => (h.clocked a i e he).mono hblock
  cases moves_of_next hnext with
  | mint e hclock hcount hentries =>
    refine ⟨fun b j f hf => ?_, fun b d j f g hf hg => ?_, fun b j f hf => ?_⟩
    · rw [hentries] at hf
      rw [hcount]
      rcases entries_update hf with ⟨-, heq⟩ | ⟨-, hf⟩
      · rw [← (Prod.mk.inj (Option.some.inj heq)).1]
        exact Nat.lt_succ_self _
      · exact (h.below b j f hf).trans (Nat.lt_succ_self _)
    · rw [hentries] at hf hg
      rcases entries_update hf with ⟨hb, heq⟩ | ⟨-, hf⟩ <;>
        rcases entries_update hg with ⟨hd, heq'⟩ | ⟨-, hg⟩
      · rw [hb, hd]
      -- An entry with the ID that is being given out would be below the count.
      · have hlt := h.below d j g hg
        rw [(Prod.mk.inj (Option.some.inj heq)).1] at hlt
        exact absurd hlt (lt_irrefl _)
      · have hlt := h.below b j f hf
        rw [(Prod.mk.inj (Option.some.inj heq')).1] at hlt
        exact absurd hlt (lt_irrefl _)
      · exact h.distinct b d j f g hf hg
    · rw [hentries] at hf
      rcases entries_update hf with ⟨-, heq⟩ | ⟨-, hf⟩
      · rw [← (Prod.mk.inj (Option.some.inj heq)).2]
        exact hclock
      · exact hold b j f hf
  | rewrite a i e e' hentry hlater hclock hcount hentries =>
    have hclocked := hold a i e hentry
    refine ⟨fun b j f hf => ?_, fun b d j f g hf hg => ?_, fun b j f hf => ?_⟩
    · rw [hentries] at hf
      rw [hcount]
      rcases entries_update hf with ⟨-, heq⟩ | ⟨-, hf⟩
      · rw [← (Prod.mk.inj (Option.some.inj heq)).1]
        exact h.below a i e hentry
      · exact h.below b j f hf
    · rw [hentries] at hf hg
      rcases entries_update hf with ⟨hb, heq⟩ | ⟨hb, hf⟩ <;>
        rcases entries_update hg with ⟨hd, heq'⟩ | ⟨hd, hg⟩
      · rw [hb, hd]
      · rw [← (Prod.mk.inj (Option.some.inj heq)).1] at hg
        exact absurd (h.distinct d a i g e hg hentry) hd
      · rw [← (Prod.mk.inj (Option.some.inj heq')).1] at hf
        exact absurd (h.distinct b a i f e hf hentry) hb
      · exact h.distinct b d j f g hf hg
    · rw [hentries] at hf
      rcases entries_update hf with ⟨-, heq⟩ | ⟨-, hf⟩
      · rw [← (Prod.mk.inj (Option.some.inj heq)).2]
        exact hclock (UInt64.le_trans hclocked.created hclocked.modified)
      · exact hold b j f hf
  | remove a hcount hentries =>
    have hsub : ∀ b j f, R'.entries b = some (j, f) → R.entries b = some (j, f) := by
      intro b j f hf
      rw [hentries] at hf
      rcases entries_update hf with ⟨-, heq⟩ | ⟨-, hf⟩
      · cases heq
      · exact hf
    refine ⟨fun b j f hf => hcount ▸ h.below b j f (hsub b j f hf), fun b d j f g hf hg =>
      h.distinct b d j f g (hsub b j f hf) (hsub d j g hg), fun b j f hf => hold b j f (hsub b j f hf)⟩

omit [Host] in
theorem Orderly.mono {block' : UInt64} (h : Orderly block R) (hb : block ≤ block') :
    Orderly block' R :=
  ⟨h.below, h.distinct, fun a i e he => (h.clocked a i e he).mono hb⟩

/-- The blocks of operations do not decrease. -/
def InOrder (cs : List OpCall) : Prop :=
  cs.Pairwise fun c d => c.ctx.currentBlock ≤ d.ctx.currentBlock

/-- **Order along a run of the machine.** -/
theorem orderly_after {cs : List OpCall} (hcs : InOrder cs)
    (hblock : ∀ c ∈ cs, c.ctx.currentBlock ≤ block) (h : after cs = some R) : Orderly block R := by
  induction cs using List.reverseRecOn generalizing R block with
  | nil =>
    obtain rfl := Option.some.inj h
    exact orderly_empty block
  | append_singleton cs c ih =>
    rw [after_snoc] at h
    obtain ⟨R₀, hR₀, hnext⟩ := Option.bind_eq_some_iff.mp h
    obtain ⟨hinit, -, hlast⟩ := List.pairwise_append.mp hcs
    have horder := ih hinit (fun d hd => hlast d hd c List.mem_cons_self) hR₀
    exact (horder.next (UInt64.le_refl _) hnext).mono (hblock c (by simp))

/-- The later registry: nothing is numbered anew, and what still has its ID is the later record of
    the same entity. -/
structure Succeeds (R R' : Registry) : Prop where
  count : R.count ≤ R'.count
  lineage : ∀ a b i e e', R.entries a = some (i, e) → R'.entries b = some (i, e') →
    b = a ∧ Lineage e e'

omit [Host] in
theorem Orderly.succeeds (h : Orderly block R) : Succeeds R R := by
  refine ⟨le_rfl, fun a b i e e' he he' => ?_⟩
  obtain rfl := h.distinct a b i e e' he he'
  obtain rfl := (Prod.mk.inj (Option.some.inj (he.symm.trans he'))).2
  exact ⟨rfl, .refl e⟩

/-- **Step**: one more operation on a later registry. -/
theorem Succeeds.next {R₁ : Registry} (h : Succeeds R₁ R) (h₁ : Orderly block R₁)
    (hR : Orderly c.ctx.currentBlock R) (hnext : R.next c = some R') : Succeeds R₁ R' := by
  cases moves_of_next hnext with
  | mint f hclock hcount hentries =>
    refine ⟨h.count.trans (hcount ▸ Nat.le_succ _), fun a b i e e' he he' => ?_⟩
    rw [hentries] at he'
    rcases entries_update he' with ⟨-, heq⟩ | ⟨-, he'⟩
    · -- The new number is not one that was given out before.
      have hlt := (h₁.below a i e he).trans_le h.count
      rw [(Prod.mk.inj (Option.some.inj heq)).1] at hlt
      exact absurd hlt (lt_irrefl _)
    · exact h.lineage a b i e e' he he'
  | rewrite d j f f' hentry hlater hclock hcount hentries =>
    refine ⟨h.count.trans (hcount ▸ le_rfl), fun a b i e e' he he' => ?_⟩
    rw [hentries] at he'
    rcases entries_update he' with ⟨rfl, heq⟩ | ⟨-, he'⟩
    · obtain ⟨rfl, rfl⟩ := Prod.mk.inj (Option.some.inj heq)
      obtain ⟨haddr, hline⟩ := h.lineage a b _ e f he hentry
      exact ⟨haddr, hline.trans (hlater (hR.clocked b _ f hentry).modified)⟩
    · exact h.lineage a b i e e' he he'
  | remove d hcount hentries =>
    refine ⟨h.count.trans (hcount ▸ le_rfl), fun a b i e e' he he' => ?_⟩
    rw [hentries] at he'
    rcases entries_update he' with ⟨-, heq⟩ | ⟨-, he'⟩
    · cases heq
    · exact h.lineage a b i e e' he he'

/-- **Lineage along a run of the machine.** -/
theorem succeeds_after {cs ds : List OpCall} (hcs : InOrder (cs ++ ds)) {R₁ R₂ : Registry}
    (h₁ : after cs = some R₁) (h₂ : after (cs ++ ds) = some R₂) : Succeeds R₁ R₂ := by
  have hfirst : ∀ c ∈ cs, c.ctx.currentBlock ≤ 0xFFFFFFFFFFFFFFFF := fun c _ =>
    UInt64.le_iff_toNat_le.mpr (Nat.le_of_lt_succ c.ctx.currentBlock.toNat_lt)
  have horder := orderly_after (List.pairwise_append.mp hcs).1 hfirst h₁
  induction ds using List.reverseRecOn generalizing R₂ with
  | nil =>
    rw [List.append_nil, h₁] at h₂
    obtain rfl := Option.some.inj h₂
    exact horder.succeeds
  | append_singleton ds d ih =>
    rw [← List.append_assoc, after_snoc] at h₂
    rw [← List.append_assoc] at hcs
    obtain ⟨R₀, hR₀, hnext⟩ := Option.bind_eq_some_iff.mp h₂
    obtain ⟨hinit, -, hlast⟩ := List.pairwise_append.mp hcs
    exact (ih hinit hR₀).next horder
      (orderly_after hinit (fun c hc => hlast c hc d List.mem_cons_self) hR₀) hnext

end Machine

end Registry

section Runs

variable [Host] {S : Scope} {chainId : UInt64} {steps before rest : List Chain.Step}

omit [Host] in
theorem inOrder_calls {h : History} (hblocks : BlocksOrdered h) : Registry.InOrder h.calls :=
  List.pairwise_map.mpr hblocks

/-- **The clock of a record**: after every run over blocks that do not decrease, with fewer than
    `2 ^ 64` creates and only entities that look like entities, a live record was created no later
    than it was changed last, and that no later than it expires and than the last accepted
    operation. -/
theorem clock_run (hrun : Chain.AllowedRun chainId S.foreign steps)
    (hsound : SoundHistory S (Chain.run steps).history)
    (honly : OnlyEntitiesIn S chainId (Chain.run steps).history)
    (hblocks : BlocksOrdered (Chain.run steps).history)
    (hlt : creates (Chain.run steps).history < 2 ^ 64) {block : UInt64}
    (hlast : ∀ x ∈ (Chain.run steps).history, x.label.ctx.currentBlock ≤ block) :
    ∀ a e, Live S chainId (Chain.run steps).world a e → Clocked block e := by
  obtain ⟨R, hR, hA⟩ := exists_abstracts_run hrun hsound honly hlt
  have horder : Registry.Orderly block R := by
    refine Registry.orderly_after (inOrder_calls hblocks) (fun c hc => ?_) hR
    obtain ⟨x, hx, rfl⟩ := List.mem_map.mp hc
    exact hlast x hx
  intro a e he
  exact horder.clocked a _ e ((hA.entries a _ e).mpr ⟨he, rfl⟩)

/-- **The lineage of a record**: between two moments of a run over blocks that do not decrease, with
    fewer than `2 ^ 64` creates and only entities that look like entities, what is live under one
    ID at both is one entity at one address, whose key, creator and creation stay and whose expiry
    and last change only move forward. -/
theorem lineage_run (hrun : Chain.AllowedRun chainId S.foreign (before ++ rest))
    (hsound : SoundHistory S (Chain.run (before ++ rest)).history)
    (honly : OnlyEntitiesIn S chainId (Chain.run (before ++ rest)).history)
    (hblocks : BlocksOrdered (Chain.run (before ++ rest)).history)
    (hlt : creates (Chain.run (before ++ rest)).history < 2 ^ 64) :
    ∀ a b e e', Live S chainId (Chain.run before).world a e →
      Live S chainId (Chain.run (before ++ rest)).world b e' →
      readEntityId (Chain.run before).world a = readEntityId (Chain.run (before ++ rest)).world b →
      b = a ∧ Lineage e e' := by
  obtain ⟨later, hlater⟩ := Chain.history_prefix before rest
  have hsub := (Chain.history_prefix before rest).subset
  have hlt' : creates (Chain.run before).history < 2 ^ 64 := by
    rw [← hlater, creates, List.countP_append] at hlt
    exact (Nat.le_add_right _ _).trans_lt hlt
  obtain ⟨R₁, hR₁, hA₁⟩ := exists_abstracts_run (Runs.guarded_append.mp hrun).1
    (fun x hx => hsound x (hsub hx)) (fun x hx => honly x (hsub hx)) hlt'
  obtain ⟨R₂, hR₂, hA₂⟩ := exists_abstracts_run hrun hsound honly hlt
  have hcalls : (Chain.run (before ++ rest)).history.calls =
      (Chain.run before).history.calls ++ History.calls later := by
    rw [← hlater]
    exact List.map_append
  rw [hcalls] at hR₂
  have hsucceeds := Registry.succeeds_after (hcalls ▸ inOrder_calls hblocks) hR₁ hR₂
  intro a b e e' he he' hid
  exact hsucceeds.lineage a b _ e e' ((hA₁.entries a _ e).mpr ⟨he, rfl⟩)
    ((hA₂.entries b _ e').mpr ⟨he', congrArg UInt64.toNat hid.symm⟩)

end Runs

theorem clock_openRun : Clocked 5 DevChain.firstEntity ∧ Clocked 5 DevChain.secondEntity := by
  have hlast : ∀ x ∈ (Chain.run DevChain.openRun).history, x.label.ctx.currentBlock ≤ 5 := by
    intro x hx
    have hlabel := List.mem_map_of_mem (f := fun x : OpTransition => x.label) hx
    rw [DevChain.openFacts_openRun.calls] at hlabel
    rcases List.mem_pair.mp hlabel with heq | heq
    · rw [heq]
      exact UInt64.le_refl 5
    · rw [heq]
      exact UInt64.le_refl 5
  have hclock := clock_run DevChain.facts_openRun.allowed DevChain.facts_openRun.sound
    DevChain.facts_openRun.only DevChain.facts_openRun.blocks DevChain.facts_openRun.creates hlast
  exact ⟨hclock _ _ DevChain.openFacts_openRun.first, hclock _ _ DevChain.openFacts_openRun.second⟩

/-- The first entity before it is sold, and after all of the trade. -/
theorem lineage_tradeRun : Lineage DevChain.firstEntity DevChain.soldEntity :=
  (lineage_run DevChain.facts_tradeRun.allowed DevChain.facts_tradeRun.sound
    DevChain.facts_tradeRun.only DevChain.facts_tradeRun.blocks DevChain.facts_tradeRun.creates
    _ _ _ _ DevChain.openFacts_openRun.first DevChain.live_tradeRun
    (DevChain.openFacts_openRun.id.trans DevChain.readEntityId_tradeRun.symm)).2

end Arkiv
