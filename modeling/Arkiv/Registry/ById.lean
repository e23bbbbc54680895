import Mathlib
import Arkiv.Lib.TwoTier
import Arkiv.Registry.EventLog
import Arkiv.Registry.IdMaps

/-!
# Live entities by their IDs

Everything that indexes and answers know of an entity they know by its ID. An
accepted operation changes the record under one ID: it fills a fresh one,
replaces a record or clears it, and leaves all others.

## Main definitions

- `LiveId` — the live entity with an ID
- `IdChange` — the record under one ID changes
- `MintChange.idChange`, `RewriteChange.idChange`, `RemoveChange.idChange` — what the three kinds of
  operations do to it
- `idEntries` — the annotations under an ID, as entries of an index
- `entity_invariant` — induction over runs of entities
-/

namespace Arkiv

open ByteString

variable [Host] {S : Scope} {chainId : UInt64} {w w' : World} {h : History} {x : OpTransition}

/-- The live entity with the ID. -/
def LiveId (S : Scope) (chainId : UInt64) (w : World) (i : UInt64) (e : EntityRlp) : Prop :=
  ∃ a, Live S chainId w a e ∧ readEntityId w a = i

theorem Numbered.liveId_unique (hN : Numbered S chainId w h) {i : UInt64} {e f : EntityRlp}
    (he : LiveId S chainId w i e) (hf : LiveId S chainId w i f) : e = f := by
  obtain ⟨a, ha, hia⟩ := he
  obtain ⟨b, hb, hib⟩ := hf
  obtain rfl := hN.distinct ha hb (hia.trans hib.symm)
  exact ha.2.unique hb.2

theorem LiveId.congr (hcode : ∀ a, S.EntityAt chainId a → w'.code a = w.code a)
    (hslot : ∀ s, w'.slot s = w.slot s) {i : UInt64} {e : EntityRlp} :
    LiveId S chainId w' i e ↔ LiveId S chainId w i e := by
  refine exists_congr fun a => and_congr (and_congr_right fun ha => LiveAt.congr (hcode a ha) e) ?_
  rw [readEntityId_congr (hslot _)]

/-- Under the ID `i` there was the record `old` and is the record `new`; no other ID changes. -/
structure IdChange (S : Scope) (chainId : UInt64) (w w' : World) (i : UInt64)
    (old new : Option EntityRlp) : Prop where
  pre : ∀ e, LiveId S chainId w i e ↔ old = some e
  post : ∀ e, LiveId S chainId w' i e ↔ new = some e
  other : ∀ j e, j ≠ i → (LiveId S chainId w' j e ↔ LiveId S chainId w j e)

/-- A create fills the ID that the counter gives. -/
theorem MintChange.idChange {e : EntityRlp} (hc : MintChange S chainId w w' x.label.ctx e)
    (hR : Registered S chainId w h) (hN : Numbered S chainId w h) :
    IdChange S chainId w w' (entityCount w) none (some e) := by
  have hfresh : ∀ f, ¬LiveId S chainId w (entityCount w) f := by
    rintro f ⟨a, ha, hid⟩
    have hlt := hN.id_lt a f ha
    rw [hid, hN.count] at hlt
    exact lt_irrefl _ hlt
  refine ⟨fun f => iff_of_false (hfresh f) (by simp), fun f => ?_, fun j f hj => ?_⟩
  · constructor
    · rintro ⟨a, ha, hid⟩
      have hold := hc.live_iff.mp ha
      split at hold
      · rw [hold]
      · rw [readEntityId_congr (hc.addr_slot hR hold)] at hid
        exact absurd ⟨a, hold, hid⟩ (hfresh f)
    · intro hf
      obtain rfl := Option.some.inj hf
      exact ⟨_, hc.live_new, hc.readEntityId_new⟩
  · constructor
    · rintro ⟨a, ha, rfl⟩
      have hold := hc.live_iff.mp ha
      split at hold
      · next heq =>
        rw [heq, hc.readEntityId_new] at hj
        exact absurd rfl hj
      · exact ⟨a, hold, (readEntityId_congr (hc.addr_slot hR hold)).symm⟩
    · rintro ⟨a, ha, hid⟩
      exact ⟨a, hc.live_of_live hR ha, (readEntityId_congr (hc.addr_slot hR ha)).trans hid⟩

/-- An update, extension or transfer replaces the record. -/
theorem RewriteChange.idChange {a : Address} {e e' : EntityRlp}
    (hc : RewriteChange S chainId w w' a e e') (hR : Registered S chainId w h)
    (hN : Numbered S chainId w h) :
    IdChange S chainId w w' (readEntityId w a) (some e) (some e') := by
  have hid : ∀ b f, Live S chainId w b f → readEntityId w' b = readEntityId w b := fun b f hb =>
    readEntityId_congr (hc.addr_slot (hR.recorded b f hb).addr_mem)
  have hself : ∀ b f, Live S chainId w b f → readEntityId w b = readEntityId w a → b = a :=
    fun b f hb heq => hN.distinct hb hc.live heq
  have hnew : Live S chainId w' a e' := by
    rw [hc.live_iff, if_pos rfl]
  refine ⟨fun f => ?_, fun f => ?_, fun j f hj => ?_⟩
  · constructor
    · intro hf
      rw [hN.liveId_unique hf ⟨a, hc.live, rfl⟩]
    · intro hf
      obtain rfl := Option.some.inj hf
      exact ⟨a, hc.live, rfl⟩
  · constructor
    · rintro ⟨b, hb, hidb⟩
      have hold := hc.live_iff.mp hb
      split at hold
      · rw [hold]
      · next hne =>
        rw [hid b f hold] at hidb
        exact absurd (hself b f hold hidb) hne
    · intro hf
      obtain rfl := Option.some.inj hf
      exact ⟨a, hnew, hid a e hc.live⟩
  · constructor
    · rintro ⟨b, hb, rfl⟩
      have hold := hc.live_iff.mp hb
      split at hold
      · next heq =>
        rw [heq, hid a e hc.live] at hj
        exact absurd rfl hj
      · exact ⟨b, hold, (hid b f hold).symm⟩
    · rintro ⟨b, hb, rfl⟩
      refine ⟨b, ?_, hid b f hb⟩
      rw [hc.live_iff, if_neg]
      · exact hb
      · rintro rfl
        exact hj rfl

/-- A deletion or expiry clears the ID. -/
theorem RemoveChange.idChange {a : Address} {e : EntityRlp}
    (hc : RemoveChange S chainId w w' a e) (hR : Registered S chainId w h)
    (hN : Numbered S chainId w h) :
    IdChange S chainId w w' (readEntityId w a) (some e) none := by
  have hid : ∀ b f, Live S chainId w b f → b ≠ a → readEntityId w' b = readEntityId w b :=
    fun b f hb hne => readEntityId_congr (hc.addr_slot (hR.recorded b f hb).addr_mem hne)
  refine ⟨fun f => ?_, fun f => iff_of_false ?_ (by simp), fun j f hj => ?_⟩
  · constructor
    · intro hf
      rw [hN.liveId_unique hf ⟨a, hc.live, rfl⟩]
    · intro hf
      obtain rfl := Option.some.inj hf
      exact ⟨a, hc.live, rfl⟩
  · rintro ⟨b, hb, hidb⟩
    obtain ⟨hne, hold⟩ := hc.live_iff.mp hb
    rw [hid b f hold hne] at hidb
    exact hne (hN.distinct hold hc.live hidb)
  · constructor
    · rintro ⟨b, hb, rfl⟩
      obtain ⟨hne, hold⟩ := hc.live_iff.mp hb
      exact ⟨b, hold, (hid b f hold hne).symm⟩
    · rintro ⟨b, hb, rfl⟩
      have hne : b ≠ a := by
        rintro rfl
        exact hj rfl
      exact ⟨b, hc.live_iff.mpr ⟨hne, hb⟩, hid b f hb hne⟩

/-- Annotations are filed under their key and value, and listed when they are in tier 2. -/
def annotationSchema : TwoTier.Schema Annotation Bytes Bytes where
  key := Annotation.key
  value := Annotation.value
  listed a := a.tier2 = true

/-- The annotations of the live entity with the ID. -/
def idEntries (S : Scope) (chainId : UInt64) (w : World) (i : UInt64) : Set Annotation :=
  {a | ∃ e, LiveId S chainId w i e ∧ a ∈ e.annotations}

section Entries

variable {i : UInt64} {old new : Option EntityRlp} {a : Annotation}

theorem mem_idEntries_iff (hold : ∀ e, LiveId S chainId w i e ↔ old = some e) :
    a ∈ idEntries S chainId w i ↔ ∃ e, old = some e ∧ a ∈ e.annotations :=
  exists_congr fun e => and_congr_left fun _ => hold e

theorem IdChange.mem_pre (hc : IdChange S chainId w w' i old new) :
    a ∈ idEntries S chainId w i ↔ ∃ e, old = some e ∧ a ∈ e.annotations :=
  mem_idEntries_iff hc.pre

theorem IdChange.mem_post (hc : IdChange S chainId w w' i old new) :
    a ∈ idEntries S chainId w' i ↔ ∃ e, new = some e ∧ a ∈ e.annotations :=
  mem_idEntries_iff hc.post

theorem IdChange.entries_other (hc : IdChange S chainId w w' i old new) {j : UInt64}
    (hj : j ≠ i) : idEntries S chainId w' j = idEntries S chainId w j := by
  ext a
  exact exists_congr fun e => and_congr_left fun _ => hc.other j e hj

end Entries

/-- The accounts that the registry derives and the slots of the system account are the same. -/
structure SameRegistry (S : Scope) (chainId : UInt64) (w w' : World) : Prop where
  entity : ∀ a, S.EntityAt chainId a → w'.code a = w.code a
  derived : ∀ p ∈ S.accounts, w'.code (derivedAddress p) = w.code (derivedAddress p)
  slot : ∀ s, w'.slot s = w.slot s
  logs : w'.logs = w.logs

/-- **Induction over runs of entities**: what the accepted operations of a sound run with fewer than
    `2 ^ 64` creates keep, where only entities look like entities, and what depends on the registry
    only holds after the run. -/
theorem entity_invariant {Q : World → History → Prop} {steps : List Chain.Step}
    (hgen : Q World.genesis [])
    (hop : ∀ h x, x ∈ (Chain.run steps).history → creates (h ++ [x]) < 2 ^ 64 →
      Made S chainId h x → Numbered S chainId x.pre h → OnlyEntities S chainId x.pre → Q x.pre h →
      Q x.post (h ++ [x]))
    (hcongr : ∀ w w' h, SameRegistry S chainId w w' → Q w h → Q w' h)
    (hrun : Chain.AllowedRun chainId S.foreign steps)
    (hsound : SoundHistory S (Chain.run steps).history)
    (honly : OnlyEntitiesIn S chainId (Chain.run steps).history)
    (hlt : creates (Chain.run steps).history < 2 ^ 64) :
    Q (Chain.run steps).world (Chain.run steps).history := by
  have hsplits := (numbered_run hrun hsound honly hlt).2
  have hall := sound_invariant (Q := fun w h =>
      Runs.AllSplits (fun h (x : OpTransition) => Numbered S chainId x.pre h) h →
      (∀ x ∈ h, x ∈ (Chain.run steps).history) → creates h < 2 ^ 64 → Q w h)
    (fun _ _ _ => hgen) (fun h x hmade _ hQ hN hmem hlt => ?_)
    (fun w h addr acc _ _ hQ ha hN hmem hlt => ?_) (fun w h f hQ hN hmem hlt => ?_)
    (fun w h hR hQ hN hmem hlt => ?_) hrun hsound
  · exact hall.2 hsplits (fun x hx => hx) hlt
  · have hx := hmem x (by simp)
    have hlt' : creates h < 2 ^ 64 := by
      rw [creates_snoc] at hlt
      omega
    exact hop h x hx hlt hmade (hN h x [] rfl) (honly x hx)
      (hQ hN.init (fun y hy => hmem y (List.mem_append_left _ hy)) hlt')
  · refine hcongr _ _ h ⟨fun a hentity => World.code_foreign ha a hentity, fun p hp => ?_,
      World.slot_foreign ha, rfl⟩ (hQ hN hmem hlt)
    refine World.code_setAccount_of_ne ?_
    rintro rfl
    exact S.foreign_not_derived p hp ha
  · exact hcongr w _ h ⟨fun _ _ => rfl, fun _ _ => rfl, fun _ => rfl, rfl⟩ (hQ hN hmem hlt)
  · exact hcongr _ _ h ⟨fun a _ => w.code_prune a, fun p _ => w.code_prune _,
      World.slot_prune hR.hosted, rfl⟩ (hQ hN hmem hlt)

end Arkiv
