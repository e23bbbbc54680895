import Mathlib
import Arkiv.DevChain.Check

/-!
# The ID maps

The two maps of the system account between addresses and IDs are a bijection on
the live entities, and everything outside it reads zero.

## Main definitions

- `IdBijection` — what the maps say about the live entities
- `idBijection_run` — it holds after every run
-/

namespace Arkiv

open ByteString

section Runs

variable [Host]

/-- The maps between addresses and IDs fit the live entities. -/
structure IdBijection (S : Scope) (chainId : UInt64) (w : World) : Prop where
  entry : ∀ a e, Live S chainId w a e →
    ∃! i, readEntityId w a = i ∧ w.slot (slotIdToAddr i) = addressToStorage a
  below : ∀ a e, Live S chainId w a e → readEntityId w a < entityCount w
  distinct : ∀ a b e f, Live S chainId w a e → Live S chainId w b f →
    readEntityId w a = readEntityId w b → a = b
  unused : ∀ i, .idToAddr i ∈ S.slots →
    (∀ a e, Live S chainId w a e → readEntityId w a ≠ i) → w.slot (slotIdToAddr i) = 0
  resolve : ∀ a e, Live S chainId w a e →
    resolveId w (readEntityId w a) = .ok (if a = 0 then none else some e)
  resolve_none : ∀ i, .idToAddr i ∈ S.slots →
    (∀ a e, Live S chainId w a e → readEntityId w a ≠ i) → resolveId w i = .ok none

variable {S : Scope} {chainId : UInt64} {w : World} {h : History}

omit [Host] in
theorem addressToStorage_eq_zero {a : Address} : addressToStorage a = 0 ↔ a = 0 := by
  constructor
  · intro ha
    rw [← storageToAddress_addressToStorage a, ha, storageToAddress_zero]
  · rintro rfl
    rfl

/-- The slot of a live entity leads back to its record; the zero address reads as no entry. -/
theorem resolveId_of_live {i : UInt64} {a : Address} {e : EntityRlp} (he : LiveAt w a e)
    (hslot : w.slot (slotIdToAddr i) = addressToStorage a) :
    resolveId w i = .ok (if a = 0 then none else some e) := by
  have hcode : w.code a ≠ [] := fun hnil => not_liveAt_of_nil hnil e he
  simp only [resolveId, hslot, addressToStorage_eq_zero, storageToAddress_addressToStorage]
  split
  · rfl
  · rw [he]

theorem resolveId_of_zero {i : UInt64} (hslot : w.slot (slotIdToAddr i) = 0) :
    resolveId w i = .ok none := by
  simp [resolveId, hslot]

/-- The counter has counted the creates. -/
structure Counted (w : World) (h : History) : Prop where
  count : (entityCount w).toNat = creates h
  spent : ∀ x ∈ h, x.IsCreate → (entityCount x.pre).toNat < creates h

/-- **The numbering invariant**: the ID of a live entity leads back to its address. -/
structure Numbered (S : Scope) (chainId : UInt64) (w : World) (h : History) : Prop
    extends Counted w h where
  id_lt : ∀ a e, Live S chainId w a e → (readEntityId w a).toNat < creates h
  idToAddr : ∀ a e, Live S chainId w a e →
    w.slot (slotIdToAddr (readEntityId w a)) = addressToStorage a
  idle : ∀ i, .idToAddr i ∈ S.slots → (∀ a e, Live S chainId w a e → readEntityId w a ≠ i) →
    w.slot (slotIdToAddr i) = 0

theorem Numbered.distinct (hN : Numbered S chainId w h) {a b : Address} {e f : EntityRlp}
    (he : Live S chainId w a e) (hf : Live S chainId w b f)
    (heq : readEntityId w a = readEntityId w b) : a = b := by
  have ha := hN.idToAddr a e he
  rw [heq, hN.idToAddr b f hf] at ha
  exact (addressToStorage_inj.mp ha).symm

variable {w' : World} {x : OpTransition}

theorem entityCount_congr (hs : w'.slot slotEntityCount = w.slot slotEntityCount) :
    entityCount w' = entityCount w := by
  rw [entityCount, hs, entityCount]

theorem Counted.keep (hN : Counted w h) (hx : ¬x.IsCreate)
    (hs : w'.slot slotEntityCount = w.slot slotEntityCount) : Counted w' (h ++ [x]) where
  count := by rw [creates_snoc_of_not hx, entityCount_congr hs, hN.count]
  spent y hy hc := by
    rw [creates_snoc_of_not hx]
    rcases List.mem_append.mp hy with hy | hy
    · exact hN.spent y hy hc
    · rw [List.mem_singleton.mp hy] at hc
      exact absurd hc hx

theorem Counted.mint (hN : Counted w h) (hx : x.IsCreate) (hpre : x.pre = w)
    (hlt : creates h + 1 < 2 ^ 64) {e : EntityRlp}
    (hc : MintChange S chainId w w' x.label.ctx e) : Counted w' (h ++ [x]) := by
  have hcreates : creates (h ++ [x]) = creates h + 1 := by rw [creates_snoc, if_pos hx]
  refine ⟨?_, fun y hy hcr => ?_⟩
  · have h1 : (1 : UInt64).toNat = 1 := rfl
    rw [entityCount, hc.count, storageToU64_u64ToStorage, UInt64.toNat_add, h1, hN.count, hcreates,
      Nat.mod_eq_of_lt hlt]
  · rw [hcreates]
    rcases List.mem_append.mp hy with hy | hy
    · exact (hN.spent y hy hcr).trans (Nat.lt_succ_self _)
    · rw [List.mem_singleton.mp hy, hpre, hN.count]
      exact Nat.lt_succ_self _

/-- An accepted operation keeps the count while IDs last. -/
theorem Counted.step (hN : Counted x.pre h) (hmade : Made S chainId h x)
    (hlt : creates (h ++ [x]) < 2 ^ 64) : Counted x.post (h ++ [x]) := by
  cases hmade.change with
  | mint e hx hc =>
    rw [creates_snoc, if_pos hx] at hlt
    exact hN.mint hx rfl hlt hc
  | rewrite e e' hx hkeep hc => exact hN.keep hx (hc.slot _ S.count_mem fun _ _ => by simp)
  | remove e hx hc =>
    exact hN.keep hx.not_isCreate ((hc.slot _ S.count_mem).trans (if_neg (by simp)))
  | outside e hx hload hc =>
    exact hN.keep hx (hc.slot _ S.count_mem (fun _ _ => by simp) (by simp) (by simp))

/-- The counter has counted the creates after every run, and had before each accepted
    operation. -/
theorem counted_run {steps : List Chain.Step} (hrun : Chain.AllowedRun chainId S.foreign steps)
    (hsound : SoundHistory S (Chain.run steps).history)
    (hlt : creates (Chain.run steps).history < 2 ^ 64) :
    Counted (Chain.run steps).world (Chain.run steps).history ∧
      Runs.AllSplits (fun h (x : OpTransition) => Counted x.pre h) (Chain.run steps).history := by
  have hcongr : ∀ {w w' : World} {h : History}, Counted w h →
      w'.slot slotEntityCount = w.slot slotEntityCount → Counted w' h := fun hN hs =>
    ⟨by rw [entityCount_congr hs, hN.count], hN.spent⟩
  have hall := sound_invariant (Q := fun w h => creates h < 2 ^ 64 →
      Counted w h ∧ Runs.AllSplits (fun h (x : OpTransition) => Counted x.pre h) h)
    (fun _ => ⟨⟨rfl, by simp⟩, .nil⟩) (fun h x hmade _ hQ hlt => ?_)
    (fun w h addr acc hR _ hQ ha hlt => (hQ hlt).imp_left fun hN => hcongr hN (World.slot_foreign ha _))
    (fun w h f hQ hlt => (hQ hlt).imp_left fun hN => ⟨hN.count, hN.spent⟩)
    (fun w h hR hQ hlt => (hQ hlt).imp_left fun hN => hcongr hN (World.slot_prune hR.hosted _))
    hrun hsound
  · exact hall.2 hlt
  · have hlt' : creates h < 2 ^ 64 := by
      rw [creates_snoc] at hlt
      omega
    obtain ⟨hN, hsplits⟩ := hQ hlt'
    exact ⟨hN.step hmade hlt, hsplits.snoc hN⟩

theorem Numbered.rewrite (hN : Numbered S chainId w h) (hR : Registered S chainId w h)
    (hx : ¬x.IsCreate) {a : Address} {e e' : EntityRlp}
    (hc : RewriteChange S chainId w w' a e e') : Numbered S chainId w' (h ++ [x]) := by
  have hcreates : creates (h ++ [x]) = creates h := creates_snoc_of_not hx
  -- A live entity was live before, under the same ID.
  have hold : ∀ b f, Live S chainId w' b f →
      ∃ g, Live S chainId w b g ∧ readEntityId w' b = readEntityId w b := by
    intro b f hf
    obtain ⟨g, hg⟩ := hc.exists_live_iff.mp ⟨f, hf⟩
    exact ⟨g, hg, readEntityId_congr (hc.addr_slot (hR.recorded b g hg).addr_mem)⟩
  refine ⟨hN.keep hx (hc.slot _ S.count_mem fun _ _ => by simp), ?id_lt, ?idToAddr, ?idle⟩
  case id_lt =>
    intro b f hf
    obtain ⟨g, hg, hid⟩ := hold b f hf
    rw [hcreates, hid]
    exact hN.id_lt b g hg
  case idToAddr =>
    intro b f hf
    obtain ⟨g, hg, hid⟩ := hold b f hf
    rw [hid, hc.id_slot (hR.recorded b g hg).id_mem]
    exact hN.idToAddr b g hg
  case idle =>
    intro i hi hno
    rw [hc.id_slot hi]
    refine hN.idle i hi fun b g hg => ?_
    obtain ⟨f, hf⟩ := hc.exists_live_iff.mpr ⟨g, hg⟩
    rw [← readEntityId_congr (hc.addr_slot (hR.recorded b g hg).addr_mem)]
    exact hno b f hf

theorem Numbered.remove (hN : Numbered S chainId w h) (hR : Registered S chainId w h)
    (hx : ¬x.IsCreate) {a : Address} {e : EntityRlp} (hc : RemoveChange S chainId w w' a e) :
    Numbered S chainId w' (h ++ [x]) := by
  have hcreates : creates (h ++ [x]) = creates h := creates_snoc_of_not hx
  have hid : ∀ b f, Live S chainId w b f → b ≠ a → readEntityId w' b = readEntityId w b :=
    fun b f hf hne => readEntityId_congr (hc.addr_slot (hR.recorded b f hf).addr_mem hne)
  refine ⟨hN.keep hx ((hc.slot _ S.count_mem).trans (if_neg (by simp))), ?id_lt, ?idToAddr, ?idle⟩
  case id_lt =>
    intro b f hf
    obtain ⟨hne, hf⟩ := hc.live_iff.mp hf
    rw [hcreates, hid b f hf hne]
    exact hN.id_lt b f hf
  case idToAddr =>
    intro b f hf
    obtain ⟨hne, hf⟩ := hc.live_iff.mp hf
    -- The cleared entry is another one, since the IDs are distinct.
    have hne' : readEntityId w b ≠ readEntityId w a := fun heq => hne (hN.distinct hf hc.live heq)
    rw [hid b f hf hne, hc.id_slot (hR.recorded b f hf).id_mem hne']
    exact hN.idToAddr b f hf
  case idle =>
    intro i hi hno
    by_cases hia : i = readEntityId w a
    · exact (hc.slot _ hi).trans (if_pos (.inl (by rw [hia])))
    · rw [hc.id_slot hi hia]
      refine hN.idle i hi fun b f hf heq => ?_
      have hba : b ≠ a := by
        rintro rfl
        exact hia heq.symm
      refine hno b f (hc.live_iff.mpr ⟨hba, hf⟩) ?_
      rw [hid b f hf hba, heq]

theorem Numbered.mint (hN : Numbered S chainId w h) (hR : Registered S chainId w h)
    (hx : x.IsCreate) (hpre : x.pre = w) (hlt : creates h + 1 < 2 ^ 64) {e : EntityRlp}
    (hc : MintChange S chainId w w' x.label.ctx e) : Numbered S chainId w' (h ++ [x]) := by
  have hcreates : creates (h ++ [x]) = creates h + 1 := by rw [creates_snoc, if_pos hx]
  have hcount := hN.count
  have hid : ∀ b f, Live S chainId w b f → readEntityId w' b = readEntityId w b :=
    fun b f hf => readEntityId_congr (hc.addr_slot hR hf)
  -- The counter has not wrapped, so no live entity has the new ID.
  have hfresh : ∀ b f, Live S chainId w b f → readEntityId w b ≠ entityCount w := by
    intro b f hf heq
    have hlt := hN.id_lt b f hf
    rw [heq] at hlt
    omega
  refine ⟨hN.toCounted.mint hx hpre hlt hc, ?id_lt, ?idToAddr, ?idle⟩
  case id_lt =>
    intro b f hf
    have hold := hc.live_iff.mp hf
    split at hold
    · next heq =>
      rw [heq, hc.readEntityId_new, hcount, hcreates]
      exact Nat.lt_succ_self _
    · rw [hid b f hold, hcreates]
      exact (hN.id_lt b f hold).trans (Nat.lt_succ_self _)
  case idToAddr =>
    intro b f hf
    have hold := hc.live_iff.mp hf
    split at hold
    · next heq => rw [heq, hc.readEntityId_new, hc.ids _ hc.id_mem, if_pos rfl]
    · rw [hid b f hold, hc.ids _ (hR.recorded b f hold).id_mem, if_neg (hfresh b f hold)]
      exact hN.idToAddr b f hold
  case idle =>
    intro i hi hno
    have hne : i ≠ entityCount w := by
      rintro rfl
      exact hno _ e hc.live_new hc.readEntityId_new
    rw [hc.ids i hi, if_neg hne]
    refine hN.idle i hi fun b f hf heq => hno b f (hc.live_of_live hR hf) ?_
    rw [hid b f hf, heq]

theorem Numbered.congr (hN : Numbered S chainId w h)
    (hcode : ∀ a, S.EntityAt chainId a → w'.code a = w.code a)
    (hslot : ∀ s, w'.slot s = w.slot s) : Numbered S chainId w' h := by
  have hlive : ∀ a e, Live S chainId w' a e ↔ Live S chainId w a e := fun a e =>
    and_congr_right fun ha => LiveAt.congr (hcode a ha) e
  have hread : ∀ a, readEntityId w' a = readEntityId w a := fun a => readEntityId_congr (hslot _)
  refine ⟨⟨by rw [entityCount_congr (hslot _), hN.count], hN.spent⟩, ?id_lt, ?idToAddr, ?idle⟩
  case id_lt =>
    intro a e he
    rw [hread]
    exact hN.id_lt a e ((hlive a e).mp he)
  case idToAddr =>
    intro a e he
    rw [hslot, hread]
    exact hN.idToAddr a e ((hlive a e).mp he)
  case idle =>
    intro i hi hno
    rw [hslot]
    exact hN.idle i hi fun a e he => hread a ▸ hno a e ((hlive a e).mpr he)

/-- An accepted operation keeps the numbering while IDs last. -/
theorem Numbered.step {x : OpTransition} (hN : Numbered S chainId x.pre h)
    (hmade : Made S chainId h x) (honly : OnlyEntities S chainId x.pre)
    (hlt : creates (h ++ [x]) < 2 ^ 64) : Numbered S chainId x.post (h ++ [x]) := by
  cases hmade.change with
  | mint e hx hc =>
    rw [creates_snoc, if_pos hx] at hlt
    exact hN.mint hmade.registered hx rfl hlt hc
  | rewrite e e' hx hkeep hc => exact hN.rewrite hmade.registered hx hc
  | remove e hx hc => exact hN.remove hmade.registered hx.not_isCreate hc
  | outside e hx hload hc => exact absurd hc (honly.not_outside hload)

/-- The numbering invariant holds wherever fewer than `2 ^ 64` creates have been made. -/
theorem numbered_splits {steps : List Chain.Step} (hrun : Chain.AllowedRun chainId S.foreign steps)
    (hsound : SoundHistory S (Chain.run steps).history)
    (honly : OnlyEntitiesIn S chainId (Chain.run steps).history) :
    (creates (Chain.run steps).history < 2 ^ 64 →
      Numbered S chainId (Chain.run steps).world (Chain.run steps).history) ∧
      Runs.AllSplits (fun h (x : OpTransition) => creates h < 2 ^ 64 → Numbered S chainId x.pre h)
        (Chain.run steps).history := by
  have hall := sound_invariant (Q := fun w h => OnlyEntitiesIn S chainId h →
      (creates h < 2 ^ 64 → Numbered S chainId w h) ∧
        Runs.AllSplits (fun h (x : OpTransition) => creates h < 2 ^ 64 → Numbered S chainId x.pre h) h)
    (fun _ => ⟨fun _ => ⟨⟨rfl, by simp⟩, fun _ e he => absurd he.2 (not_liveAt_of_nil rfl e),
      fun _ e he => absurd he.2 (not_liveAt_of_nil rfl e), fun _ _ _ => rfl⟩, .nil⟩)
    (fun h x hmade _ hQ honly => ?_)
    (fun w h addr acc _ _ hQ ha honly => (hQ honly).imp_left fun hN hlt =>
      (hN hlt).congr (World.code_foreign ha) (World.slot_foreign ha))
    (fun w h f hQ honly => (hQ honly).imp_left fun hN hlt =>
      (hN hlt).congr (fun _ _ => rfl) fun _ => rfl)
    (fun w h hR hQ honly => (hQ honly).imp_left fun hN hlt =>
      (hN hlt).congr (fun a _ => w.code_prune a) (World.slot_prune hR.hosted)) hrun hsound
  · exact hall.2 honly
  · obtain ⟨hN, hsplits⟩ := hQ fun y hy => honly y (List.mem_append_left _ hy)
    refine ⟨fun hlt => ?_, hsplits.snoc hN⟩
    have hlt' : creates h < 2 ^ 64 := by
      rw [creates_snoc] at hlt
      omega
    exact (hN hlt').step hmade (honly x (by simp)) hlt

/-- **The numbering invariant holds** after every run with fewer than `2 ^ 64` creates in which
    only entities look like entities, and held before each of its accepted operations. -/
theorem numbered_run {steps : List Chain.Step} (hrun : Chain.AllowedRun chainId S.foreign steps)
    (hsound : SoundHistory S (Chain.run steps).history)
    (honly : OnlyEntitiesIn S chainId (Chain.run steps).history)
    (hlt : creates (Chain.run steps).history < 2 ^ 64) :
    Numbered S chainId (Chain.run steps).world (Chain.run steps).history ∧
      Runs.AllSplits (fun h (x : OpTransition) => Numbered S chainId x.pre h)
        (Chain.run steps).history := by
  obtain ⟨hN, hsplits⟩ := numbered_splits hrun hsound honly
  refine ⟨hN hlt, fun h₁ x h₂ heq => hsplits h₁ x h₂ heq (lt_of_le_of_lt ?_ hlt)⟩
  rw [heq, creates, creates, List.countP_append]
  exact Nat.le_add_right _ _

/-- The numbering invariant contains the bijection. -/
theorem Numbered.idBijection (hN : Numbered S chainId w h) : IdBijection S chainId w where
  entry a e he := ⟨readEntityId w a, ⟨rfl, hN.idToAddr a e he⟩, fun i hi => hi.1.symm⟩
  below a e he := by
    have hlt := hN.id_lt a e he
    rw [← hN.count] at hlt
    exact UInt64.lt_iff_toNat_lt.mpr hlt
  distinct a b e f he hf heq := hN.distinct he hf heq
  unused i hi hno := hN.idle i hi hno
  resolve a e he := resolveId_of_live he.2 (hN.idToAddr a e he)
  resolve_none i hi hno := resolveId_of_zero (hN.idle i hi hno)

/-- **The ID maps are a bijection** on the live entities after every run with fewer than `2 ^ 64`
    creates, and `resolve_id` returns the record of exactly that entity, or nothing. -/
theorem idBijection_run {steps : List Chain.Step}
    (hrun : Chain.AllowedRun chainId S.foreign steps)
    (hsound : SoundHistory S (Chain.run steps).history)
    (honly : OnlyEntitiesIn S chainId (Chain.run steps).history)
    (hlt : creates (Chain.run steps).history < 2 ^ 64) :
    IdBijection S chainId (Chain.run steps).world :=
  (numbered_run hrun hsound honly hlt).1.idBijection

end Runs

theorem idBijection_tradeRun :
    IdBijection DevChain.tradeScope devChainId (Chain.run DevChain.tradeRun).world :=
  idBijection_run DevChain.facts_tradeRun.allowed DevChain.facts_tradeRun.sound
    DevChain.facts_tradeRun.only DevChain.facts_tradeRun.creates

end Arkiv
