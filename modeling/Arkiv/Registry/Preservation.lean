import Mathlib
import Arkiv.Registry.Invariant

/-!
# Every run keeps the registry invariant

The six operations fall into three groups: one mints a record, three rewrite the
record at a live address, two remove it. Each group keeps the invariant for a
reason of its own; operations on other accounts, foreign accounts, balances and
pruning never touch what it is about.

## Main results

- `change_of_applied` — what an accepted operation does to the registry
- `Registered.step` — it keeps the invariant
- `registered_run`, `registered_splits` — every run keeps it
-/

namespace Arkiv

open ByteString

theorem zero_notMem_builtIn {creator owner : Address} {key : B256} {created expires : UInt64}
    {contentType : Bytes} {x : Annotation}
    (hx : x ∈ builtInAnnotations creator owner key created expires contentType) :
    (0 : UInt8) ∉ x.key := by
  simp only [builtInAnnotations, List.mem_cons, List.not_mem_nil, or_false] at hx
  rcases hx with rfl | rfl | rfl | rfl | rfl | rfl | rfl
  · show (0 : UInt8) ∉ annotAll
    decide
  · show (0 : UInt8) ∉ annotCreator
    decide
  · show (0 : UInt8) ∉ annotCreatedAtBlock
    decide
  · show (0 : UInt8) ∉ annotOwner
    decide
  · show (0 : UInt8) ∉ annotKey
    decide
  · show (0 : UInt8) ∉ annotExpiration
    decide
  · show (0 : UInt8) ∉ annotContentType
    decide

theorem zero_notMem_user {attributes : List Attribute} (h : ∀ a ∈ attributes, UserKey a.key)
    {x : Annotation} (hx : x ∈ userAnnotations attributes) : (0 : UInt8) ∉ x.key := by
  obtain ⟨a, ha, rfl⟩ := List.mem_map.mp hx
  exact (h a ha).zero

variable [Host]

omit [Host] in
/-- The annotations of a well-formed record have keys without zero bytes. -/
theorem EntityRlp.WellFormed.zero_notMem {e : EntityRlp} (h : e.WellFormed) {x : Annotation}
    (hx : x ∈ e.annotations) : (0 : UInt8) ∉ x.key := by
  rcases List.mem_append.mp hx with hx | hx
  · exact zero_notMem_builtIn hx
  · exact zero_notMem_user h.keys hx

omit [Host] in
theorem updatable_subset_annotations {e : EntityRlp} {x : Annotation}
    (hx : x ∈ updatableAnnotations e.contentType e.attributes) : x ∈ e.annotations := by
  rcases List.mem_cons.mp hx with rfl | hx
  · exact List.mem_append_left _ (by simp [builtInAnnotations])
  · exact List.mem_append_right _ hx

/-- Annotations of the loaded record and new postings have their accounts in the scope. -/
theorem Scope.AccountsCovered.hasAccounts {S : Scope} {w : World} {c : OpCall}
    (hS : S.AccountsCovered w c) (hnc : c.op.operationType ≠ opCreate) {e : EntityRlp}
    (he : LiveAt w (entityAddress c.op.entityKey) e) {as : List Annotation}
    (h : ∀ x ∈ as, x ∈ e.annotations ∨ Posts w c x) : S.HasAccounts as := fun x hx =>
  (h x hx).elim (hS.record hnc e he x) (hS.posts x)

section Effects

variable {S : Scope} {chainId : UInt64} {w w' : World} {target : Address} {code : Bytes}
  {i : UInt64} {rem ins : List Annotation} {slots : List (SlotName × B256)} {event : EntityOperation}

/-- Among the entity accounts only the target changes its code. -/
theorem Effect.code_entityAt (h : Effect w w' target code i rem ins slots event)
    (hrem : S.HasAccounts rem) (hins : S.HasAccounts ins) {a : Address}
    (ha : S.EntityAt chainId a) : w'.code a = if a = target then code else w.code a := by
  obtain ⟨u, v, hu, hedits, hcode⟩ := h.edits
  have hall : S.HasAccounts (rem ++ ins) := fun x hx =>
    (List.mem_append.mp hx).elim (hrem x) (hins x)
  rw [hcode, hedits.frame.code a (ha.notMem_indexAccounts hall), hu]

/-- Slots of the scope are read back by name. -/
theorem Effect.slot_by_name (h : Effect w w' target code i rem ins slots event)
    (hslots : ∀ p ∈ slots, p.1 ∈ S.slots) : ∀ n ∈ S.slots, w'.slot n.slot =
      slots.foldl (fun g p => Function.update g p.1 p.2) (fun m => w.slot m.slot) n := by
  intro n hn
  rw [h.slot]
  exact writeSlots_slot hslots hn

/-- A slot of the scope that is not written keeps its value. -/
theorem Effect.slot_of_notMem (h : Effect w w' target code i rem ins slots event)
    (hslots : ∀ p ∈ slots, p.1 ∈ S.slots) {n : SlotName} (hn : n ∈ S.slots)
    (hne : ∀ p ∈ slots, p.1 ≠ n) : w'.slot n.slot = w.slot n.slot := by
  rw [h.slot, writeSlots]
  clear h
  induction slots using List.reverseRecOn with
  | nil => rfl
  | append_singleton slots p ih =>
    have hp : n.slot ≠ p.1.slot := fun heq =>
      hne p (by simp) (Scope.slot_inj hn (hslots p (by simp)) heq).symm
    rw [List.foldl_append, List.foldl_cons, List.foldl_nil, Function.update_of_ne hp]
    exact ih (fun q hq => hslots q (by simp [hq])) (fun q hq => hne q (by simp [hq]))

theorem writeSlots_zero (hslots : ∀ p ∈ slots, p.2 = 0) {f : B256 → B256} (hf : ∀ s, f s = 0)
    (s : B256) : writeSlots f slots s = 0 := by
  induction slots using List.reverseRecOn with
  | nil => exact hf s
  | append_singleton slots p ih =>
    rw [writeSlots, List.foldl_append, List.foldl_cons, List.foldl_nil, Function.update_apply]
    split
    · exact hslots p (by simp)
    · exact ih fun q hq => hslots q (by simp [hq])

/-- The storage host is never pruned once a slot is written. -/
theorem Effect.hosted_of (h : Effect w w' target code i rem ins slots event)
    (hw : w.nonce systemAccountAddress = 0 → ∀ s, w.slot s = 0)
    (h0 : w'.nonce systemAccountAddress = 0) (s : B256) : w'.slot s = 0 := by
  rcases h.hosted with hzero | hne
  · have hn : w.nonce systemAccountAddress = 0 := by
      by_contra hn
      exact h.persists _ hn h0
    rw [h.slot]
    exact writeSlots_zero hzero (hw hn) s
  · exact absurd h0 hne

end Effects

section Changes

variable {S : Scope} {chainId : UInt64} {w w' : World} {h : History} {x : OpTransition}

omit [Host] in
theorem creates_snoc_of_not {x : OpTransition} (hx : ¬x.IsCreate) :
    creates (h ++ [x]) = creates h := by
  rw [creates_snoc, if_neg hx, Nat.add_zero]

theorem readNonce_congr {owner : Address}
    (hs : w'.slot (slotNonces owner) = w.slot (slotNonces owner)) :
    readNonce w' owner = readNonce w owner := by
  rw [readNonce, hs, readNonce]

theorem Recorded.congr {a : Address} {e : EntityRlp} (hr : Recorded S chainId w a e)
    (haddr : w'.slot (slotAddrToId a) = w.slot (slotAddrToId a)) : Recorded S chainId w' a e :=
  { hr with id_mem := by rw [readEntityId_congr haddr]; exact hr.id_mem }

theorem Minting.mono {y : OpTransition} (hy : Minting S chainId w y)
    (hnonce : ∀ o, .nonces o ∈ S.slots → (readNonce w o).toNat ≤ (readNonce w' o).toNat) :
    Minting S chainId w' y :=
  { hy with nonce_lt := lt_of_lt_of_le hy.nonce_lt (hnonce _ hy.nonces) }

/-- No create is added and no nonce moves. -/
theorem Registered.minted_of_not (hR : Registered S chainId w h) (hx : ¬x.IsCreate)
    (hnonce : ∀ o, .nonces o ∈ S.slots → readNonce w' o = readNonce w o) :
    ∀ y ∈ h ++ [x], y.IsCreate → Minting S chainId w' y := by
  intro y hy hc
  rcases List.mem_append.mp hy with hy | hy
  · exact (hR.minted y hy hc).mono fun o ho => by rw [hnonce o ho]
  · rw [List.mem_singleton.mp hy] at hc
    exact absurd hc hx

namespace RewriteChange

variable {a : Address} {e e' : EntityRlp}

/-- Only the record at `a` differs. -/
theorem live_iff (hc : RewriteChange S chainId w w' a e e') {b : Address} {f : EntityRlp} :
    Live S chainId w' b f ↔ if b = a then f = e' else Live S chainId w b f := by
  by_cases hb : S.EntityAt chainId b
  · simp only [Live, hb, true_and, LiveAt, hc.code b hb]
    split
    · rw [EntityRlp.decodeFromCode_encodeAsCode hc.wellFormed.fits]
      simp [eq_comm]
    · rfl
  · have hne : b ≠ a := by
      rintro rfl
      exact hb hc.live.1
    simp [Live, hb, hne]

/-- The same accounts are live. -/
theorem exists_live_iff (hc : RewriteChange S chainId w w' a e e') {b : Address} :
    (∃ f, Live S chainId w' b f) ↔ ∃ f, Live S chainId w b f := by
  simp only [hc.live_iff]
  split
  · next heq =>
    subst heq
    exact ⟨fun _ => ⟨e, hc.live⟩, fun _ => ⟨e', rfl⟩⟩
  · rfl

theorem addr_slot (hc : RewriteChange S chainId w w' a e e') {b : Address}
    (hb : .addrToId b ∈ S.slots) : w'.slot (slotAddrToId b) = w.slot (slotAddrToId b) :=
  hc.slot _ hb fun _ _ => by simp

theorem id_slot (hc : RewriteChange S chainId w w' a e e') {i : UInt64}
    (hi : .idToAddr i ∈ S.slots) : w'.slot (slotIdToAddr i) = w.slot (slotIdToAddr i) :=
  hc.slot _ hi fun _ _ => by simp

theorem readNonce_eq (hc : RewriteChange S chainId w w' a e e') {o : Address}
    (ho : .nonces o ∈ S.slots) : readNonce w' o = readNonce w o :=
  readNonce_congr (hc.slot _ ho fun _ _ => by simp)

end RewriteChange

namespace RemoveChange

variable {a : Address} {e : EntityRlp}

theorem live_iff (hc : RemoveChange S chainId w w' a e) {b : Address} {f : EntityRlp} :
    Live S chainId w' b f ↔ b ≠ a ∧ Live S chainId w b f := by
  by_cases hb : S.EntityAt chainId b
  · simp only [Live, hb, true_and, LiveAt, hc.code b hb]
    split
    · next heq => simp [heq, EntityRlp.decodeFromCode_nil]
    · next hne => simp [hne]
  · simp [Live, hb]

theorem addr_slot (hc : RemoveChange S chainId w w' a e) {b : Address}
    (hb : .addrToId b ∈ S.slots) (hne : b ≠ a) :
    w'.slot (slotAddrToId b) = w.slot (slotAddrToId b) :=
  (hc.slot _ hb).trans (if_neg (by simpa using hne))

theorem id_slot (hc : RemoveChange S chainId w w' a e) {i : UInt64} (hi : .idToAddr i ∈ S.slots)
    (hne : i ≠ readEntityId w a) : w'.slot (slotIdToAddr i) = w.slot (slotIdToAddr i) :=
  (hc.slot _ hi).trans (if_neg (by simpa using hne))

theorem readNonce_eq (hc : RemoveChange S chainId w w' a e) {o : Address}
    (ho : .nonces o ∈ S.slots) : readNonce w' o = readNonce w o :=
  readNonce_congr ((hc.slot _ ho).trans (if_neg (by simp)))

end RemoveChange

namespace MintChange

variable {ctx : CallContext} {e : EntityRlp}

theorem key_eq (hc : MintChange S chainId w w' ctx e) :
    e.key = deriveEntityKey chainId ctx.caller (readNonce w ctx.caller) := by
  rw [hc.key, mintedKey, hc.chain]

theorem entityAt (hc : MintChange S chainId w w' ctx e) :
    S.EntityAt chainId (entityAddress e.key) :=
  ⟨_, _, hc.mem, by rw [hc.key_eq]⟩

theorem readNonce_eq (hc : MintChange S chainId w w' ctx e) {o : Address}
    (ho : .nonces o ∈ S.slots) :
    (readNonce w' o).toNat = (readNonce w o).toNat + if o = ctx.caller then 1 else 0 := by
  rw [readNonce, hc.nonces o ho]
  split
  · next heq =>
    subst heq
    have h1 : (1 : UInt32).toNat = 1 := rfl
    rw [storageToU32_u32ToStorage, UInt32.toNat_add, h1, Nat.mod_eq_of_lt hc.nonce_lt]
  · rw [Nat.add_zero, readNonce]

theorem readNonce_le (hc : MintChange S chainId w w' ctx e) {o : Address}
    (ho : .nonces o ∈ S.slots) : (readNonce w o).toNat ≤ (readNonce w' o).toNat := by
  rw [hc.readNonce_eq ho]
  exact Nat.le_add_right _ _

/-- The next nonce was never used, so the target is vacant. -/
theorem vacant (hc : MintChange S chainId w w' ctx e) (hR : Registered S chainId w h) :
    w.code (entityAddress e.key) = [] := by
  rw [hc.key_eq]
  exact hR.unminted _ _ hc.mem fun _ => le_rfl

theorem ne_of_live (hc : MintChange S chainId w w' ctx e) (hR : Registered S chainId w h)
    {b : Address} {f : EntityRlp} (hf : Live S chainId w b f) : b ≠ entityAddress e.key := by
  rintro rfl
  exact not_liveAt_of_nil (hc.vacant hR) f hf.2

theorem live_iff (hc : MintChange S chainId w w' ctx e) {b : Address} {f : EntityRlp} :
    Live S chainId w' b f ↔ if b = entityAddress e.key then f = e else Live S chainId w b f := by
  by_cases hb : S.EntityAt chainId b
  · simp only [Live, hb, true_and, LiveAt, hc.code b hb]
    split
    · rw [EntityRlp.decodeFromCode_encodeAsCode hc.wellFormed.fits]
      simp [eq_comm]
    · rfl
  · have hne : b ≠ entityAddress e.key := by
      rintro rfl
      exact hb hc.entityAt
    simp [Live, hb, hne]

theorem live_new (hc : MintChange S chainId w w' ctx e) :
    Live S chainId w' (entityAddress e.key) e := by
  rw [hc.live_iff, if_pos rfl]

theorem live_of_live (hc : MintChange S chainId w w' ctx e) (hR : Registered S chainId w h)
    {b : Address} {f : EntityRlp} (hf : Live S chainId w b f) : Live S chainId w' b f := by
  rw [hc.live_iff, if_neg (hc.ne_of_live hR hf)]
  exact hf

theorem addr_slot (hc : MintChange S chainId w w' ctx e) (hR : Registered S chainId w h)
    {b : Address} {f : EntityRlp} (hf : Live S chainId w b f) :
    w'.slot (slotAddrToId b) = w.slot (slotAddrToId b) := by
  rw [hc.addrs b (hR.recorded b f hf).addr_mem, if_neg (hc.ne_of_live hR hf)]

theorem readEntityId_new (hc : MintChange S chainId w w' ctx e) :
    readEntityId w' (entityAddress e.key) = entityCount w := by
  rw [readEntityId, hc.addrs _ hc.addr_mem, if_pos rfl, storageToU64_u64ToStorage]

end MintChange

/-- **Rewriting a record** keeps the invariant: the nonces and the lives stay. -/
theorem Registered.rewrite (hR : Registered S chainId w h) (hx : ¬x.IsCreate)
    (hkeep : ∀ a, ¬x.Removes a) {a : Address} {e e' : EntityRlp}
    (hc : RewriteChange S chainId w w' a e e')
    (hhost : w'.nonce systemAccountAddress = 0 → ∀ s, w'.slot s = 0) :
    Registered S chainId w' (h ++ [x]) := by
  refine ⟨?unminted, ?recorded, ?vacant, ?alive, ?minted, hhost⟩
  case unminted =>
    intro owner n hm hle
    have hnil : w.code (entityAddress (deriveEntityKey chainId owner n)) = [] :=
      hR.unminted owner n hm fun ho => hc.readNonce_eq ho ▸ hle ho
    have hne : entityAddress (deriveEntityKey chainId owner n) ≠ a := by
      rintro rfl
      exact not_liveAt_of_nil hnil e hc.live.2
    rw [hc.code _ ⟨owner, n, hm, rfl⟩, if_neg hne, hnil]
  case recorded =>
    intro b f hf
    have hold := hc.live_iff.mp hf
    split at hold
    · next heq =>
      subst heq hold
      have hr := hR.recorded b e hc.live
      exact
        { hr.congr (hc.addr_slot hr.addr_mem) with
          wellFormed := hc.wellFormed
          key := by rw [hc.key, hc.creator]; exact hr.key
          address := by rw [hc.key]; exact hr.address
          covers := hc.covers }
    · have hr := hR.recorded b f hold
      exact hr.congr (hc.addr_slot hr.addr_mem)
  case vacant =>
    intro b hb hdead
    -- An account without a record before is not the one that is rewritten.
    have hdead' : ∀ f, ¬LiveAt w b f := fun f hf =>
      let ⟨g, hg⟩ := hc.exists_live_iff.mpr ⟨f, hb, hf⟩
      hdead g hg.2
    have hne : b ≠ a := by
      rintro rfl
      exact hdead' e hc.live.2
    rw [hc.code b hb, if_neg hne]
    exact hR.vacant b hb hdead'
  case alive =>
    intro b hb
    have hsame := hc.exists_live_iff (b := b)
    simp only [Live, hb, true_and] at hsame
    rw [hsame, hR.alive b hb, aliveIn_snoc]
    constructor
    · intro hal
      exact .inr ⟨hal, hkeep b⟩
    · rintro (hm | ⟨hal, -⟩)
      · exact absurd hm.1 hx
      · exact hal
  case minted => exact hR.minted_of_not hx fun o ho => hc.readNonce_eq ho

/-- **Removing a record** keeps the invariant: its life ends. -/
theorem Registered.remove (hR : Registered S chainId w h) {a : Address} {e : EntityRlp}
    (hx : x.Removes a) (hc : RemoveChange S chainId w w' a e)
    (hhost : w'.nonce systemAccountAddress = 0 → ∀ s, w'.slot s = 0) :
    Registered S chainId w' (h ++ [x]) := by
  refine ⟨?unminted, ?recorded, ?vacant, ?alive, ?minted, hhost⟩
  case unminted =>
    intro owner n hm hle
    rw [hc.code _ ⟨owner, n, hm, rfl⟩]
    split
    · rfl
    · exact hR.unminted owner n hm fun ho => hc.readNonce_eq ho ▸ hle ho
  case recorded =>
    intro b f hf
    obtain ⟨hne, hf⟩ := hc.live_iff.mp hf
    have hr := hR.recorded b f hf
    exact hr.congr (hc.addr_slot hr.addr_mem hne)
  case vacant =>
    intro b hb hdead
    rw [hc.code b hb]
    split
    · rfl
    · next hne => exact hR.vacant b hb fun f hf => hdead f (hc.live_iff.mpr ⟨hne, hb, hf⟩).2
  case alive =>
    intro b hb
    rw [aliveIn_snoc, ← hR.alive b hb]
    constructor
    · rintro ⟨f, hf⟩
      obtain ⟨hne, -, hf⟩ := hc.live_iff.mp ⟨hb, hf⟩
      refine .inr ⟨⟨f, hf⟩, fun hrem => hne ?_⟩
      rw [← hrem.2, hx.2]
    · rintro (hm | ⟨⟨f, hf⟩, hkeep⟩)
      · exact absurd hm.1 hx.not_isCreate
      · refine ⟨f, (hc.live_iff.mpr ⟨?_, hb, hf⟩).2⟩
        rintro rfl
        exact hkeep hx
  case minted => exact hR.minted_of_not hx.not_isCreate fun o ho => hc.readNonce_eq ho

/-- **Minting a record** keeps the invariant: its key is new and the nonce moves on. -/
theorem Registered.mint (hR : Registered S chainId w h) (hx : x.IsCreate) (hpre : x.pre = w)
    {e : EntityRlp} (hc : MintChange S chainId w w' x.label.ctx e)
    (hhost : w'.nonce systemAccountAddress = 0 → ∀ s, w'.slot s = 0) :
    Registered S chainId w' (h ++ [x]) := by
  have htarget : x.target = entityAddress e.key := by
    rw [OpTransition.target, if_pos hx, hpre, hc.key]
  refine ⟨?unminted, ?recorded, ?vacant, ?alive, ?minted, hhost⟩
  case unminted =>
    intro owner n hm hle
    -- A key that is still to be minted has a nonce above the one just used.
    have hne : entityAddress (deriveEntityKey chainId owner n) ≠ entityAddress e.key := by
      intro heq
      rw [hc.key_eq] at heq
      obtain ⟨rfl, rfl⟩ := Scope.entityAddress_inj hm hc.mem heq
      have h1 := hle hc.nonces_mem
      rw [hc.readNonce_eq hc.nonces_mem, if_pos rfl] at h1
      omega
    rw [hc.code _ ⟨owner, n, hm, rfl⟩, if_neg hne]
    exact hR.unminted owner n hm fun ho => (hc.readNonce_le ho).trans (hle ho)
  case recorded =>
    intro b f hf
    have hold := hc.live_iff.mp hf
    split at hold
    · next heq =>
      subst heq hold
      refine ⟨hc.wellFormed, ⟨readNonce w x.label.ctx.caller, ?_, ?_⟩, rfl, hc.covers, ?_,
        hc.addr_mem⟩
      · rw [hc.creator]
        exact hc.key_eq
      · rw [hc.creator]
        exact hc.mem
      · rw [hc.readEntityId_new]
        exact hc.id_mem
    · exact (hR.recorded b f hold).congr (hc.addr_slot hR hold)
  case vacant =>
    intro b hb hdead
    have hne : b ≠ entityAddress e.key := by
      rintro rfl
      exact hdead e hc.live_new.2
    rw [hc.code b hb, if_neg hne]
    exact hR.vacant b hb fun f hf => hdead f (hc.live_of_live hR ⟨hb, hf⟩).2
  case alive =>
    intro b hb
    rw [aliveIn_snoc, ← hR.alive b hb]
    constructor
    · rintro ⟨f, hf⟩
      have hold := hc.live_iff.mp ⟨hb, hf⟩
      split at hold
      · next heq => exact .inl ⟨hx, by rw [htarget, heq]⟩
      · exact .inr ⟨⟨f, hold.2⟩, fun hrem => hrem.not_isCreate hx⟩
    · rintro (hm | ⟨⟨f, hf⟩, -⟩)
      · have heq : entityAddress e.key = b := htarget ▸ hm.2
        exact ⟨e, heq ▸ hc.live_new.2⟩
      · exact ⟨f, (hc.live_of_live hR ⟨hb, hf⟩).2⟩
  case minted =>
    intro y hy hcr
    rcases List.mem_append.mp hy with hy | hy
    · exact (hR.minted y hy hcr).mono fun o ho => hc.readNonce_le ho
    · rw [List.mem_singleton.mp hy]
      refine ⟨by rw [hpre]; exact hc.mem, hc.chain, hc.nonces_mem, ?_⟩
      rw [hpre, hc.readNonce_eq hc.nonces_mem, if_pos rfl]
      exact Nat.lt_succ_self _

theorem OutsideChange.readNonce_eq {a : Address} (hc : OutsideChange S chainId w w' a) {o : Address}
    (ho : .nonces o ∈ S.slots) : readNonce w' o = readNonce w o :=
  readNonce_congr (hc.slot _ ho (fun _ _ => by simp) (by simp) (by simp))

theorem OutsideChange.live_iff {a : Address} (hc : OutsideChange S chainId w w' a) {b : Address}
    {f : EntityRlp} : Live S chainId w' b f ↔ Live S chainId w b f :=
  and_congr_right fun hb => LiveAt.congr (hc.code b hb) f

/-- **Outside the entity accounts** no operation touches what the invariant is about. -/
theorem Registered.outside (hR : Registered S chainId w h) {a : Address} (hx : ¬x.IsCreate)
    (htarget : x.target = a) (hc : OutsideChange S chainId w w' a)
    (hhost : w'.nonce systemAccountAddress = 0 → ∀ s, w'.slot s = 0) :
    Registered S chainId w' (h ++ [x]) := by
  refine ⟨?unminted, ?recorded, ?vacant, ?alive, ?minted, hhost⟩
  case unminted =>
    intro owner n hm hle
    rw [hc.code _ ⟨owner, n, hm, rfl⟩]
    exact hR.unminted owner n hm fun ho => hc.readNonce_eq ho ▸ hle ho
  case recorded =>
    intro b f hf
    have hold := hc.live_iff.mp hf
    have hr := hR.recorded b f hold
    have hne : SlotName.addrToId b ≠ .addrToId a := by
      intro heq
      exact hc.outside (SlotName.addrToId.inj heq ▸ hf.1)
    exact hr.congr (hc.slot _ hr.addr_mem (fun _ _ => by simp) hne (by simp))
  case vacant =>
    intro b hb hdead
    rw [hc.code b hb]
    exact hR.vacant b hb fun f hf => hdead f (hc.live_iff.mpr ⟨hb, hf⟩).2
  case alive =>
    intro b hb
    have hsame : ∀ f, LiveAt w' b f ↔ LiveAt w b f := fun f => LiveAt.congr (hc.code b hb) f
    simp only [hsame]
    rw [hR.alive b hb, aliveIn_snoc]
    constructor
    · intro hal
      refine .inr ⟨hal, fun hrem => hc.outside ?_⟩
      rw [← htarget, hrem.2]
      exact hb
    · rintro (hm | ⟨hal, -⟩)
      · exact absurd hm.1 hx
      · exact hal
  case minted => exact hR.minted_of_not hx fun o ho => hc.readNonce_eq ho

/-- The invariant is about the codes of entity accounts and the slots of the system account. -/
theorem Registered.congr (hR : Registered S chainId w h)
    (hcode : ∀ a, S.EntityAt chainId a → w'.code a = w.code a)
    (hslot : ∀ s, w'.slot s = w.slot s)
    (hhost : w'.nonce systemAccountAddress = 0 → w.nonce systemAccountAddress = 0) :
    Registered S chainId w' h := by
  have hlive : ∀ a e, S.EntityAt chainId a → (LiveAt w' a e ↔ LiveAt w a e) :=
    fun a e ha => LiveAt.congr (hcode a ha) e
  have hnonce : ∀ o, readNonce w' o = readNonce w o := fun o => readNonce_congr (hslot _)
  refine ⟨?unminted, ?recorded, ?vacant, ?alive, ?minted, ?hosted⟩
  case unminted =>
    intro owner n hm hle
    rw [hcode _ ⟨owner, n, hm, rfl⟩]
    exact hR.unminted owner n hm fun ho => hnonce owner ▸ hle ho
  case recorded =>
    intro a e he
    exact (hR.recorded a e ⟨he.1, (hlive a e he.1).mp he.2⟩).congr (hslot _)
  case vacant =>
    intro a ha hdead
    rw [hcode a ha]
    exact hR.vacant a ha fun e he => hdead e ((hlive a e ha).mpr he)
  case alive =>
    intro a ha
    simp only [hlive a _ ha]
    exact hR.alive a ha
  case minted =>
    intro y hy hc
    exact (hR.minted y hy hc).mono fun o _ => by rw [hnonce o]
  case hosted =>
    intro h0 s
    rw [hslot]
    exact hR.hosted (hhost h0) s

end Changes

section Runs

variable {S : Scope} {chainId : UInt64}

theorem registered_genesis : Registered S chainId World.genesis [] where
  unminted _ _ _ _ := rfl
  recorded _ e he := absurd he.2 (not_liveAt_of_nil rfl e)
  vacant _ _ _ := rfl
  alive a _ := by
    constructor
    · rintro ⟨e, he⟩
      exact absurd he (not_liveAt_of_nil rfl e)
    · intro hal
      exact absurd hal (not_aliveIn_nil a)
  minted _ hy := by simp at hy
  hosted _ _ := rfl

omit [Host] in
theorem World.code_setAccount_of_ne {w : World} {addr a : Address} {acc : Account} (h : a ≠ addr) :
    (w.setAccount addr acc).code a = w.code a := by
  simp [World.setAccount, World.modify, World.code, h]

omit [Host] in
theorem World.accounts_setAccount_of_ne {w : World} {addr a : Address} {acc : Account}
    (h : a ≠ addr) : (w.setAccount addr acc).accounts a = w.accounts a := by
  simp [World.setAccount, World.modify, h]

omit [Host] in
theorem World.code_prune (w : World) (a : Address) : w.prune.code a = w.code a := by
  simp only [World.prune, World.code]
  split
  · next hempty =>
    simp only [Account.isEmpty, Bool.and_eq_true, beq_iff_eq] at hempty
    exact hempty.2.symm
  · rfl

omit [Host] in
theorem World.nonce_prune (w : World) (a : Address) : w.prune.nonce a = w.nonce a := by
  simp only [World.prune, World.nonce]
  split
  · next hempty =>
    simp only [Account.isEmpty, Bool.and_eq_true, beq_iff_eq] at hempty
    exact hempty.1.1.symm
  · rfl

omit [Host] in
/-- Pruning forgets no slot when the storage host is only empty without slots. -/
theorem World.slot_prune {w : World} (hw : w.nonce systemAccountAddress = 0 → ∀ s, w.slot s = 0)
    (s : B256) : w.prune.slot s = w.slot s := by
  simp only [World.prune, World.slot, World.storage]
  split
  · next hempty =>
    simp only [Account.isEmpty, Bool.and_eq_true, beq_iff_eq] at hempty
    exact (hw hempty.1.1 s).symm
  · rfl

/-- Somebody else's account is no entity account. -/
theorem World.code_foreign {w : World} {addr : Address} {acc : Account} (haddr : addr ∈ S.foreign)
    (a : Address) (ha : S.EntityAt chainId a) : (w.setAccount addr acc).code a = w.code a := by
  apply World.code_setAccount_of_ne
  rintro rfl
  exact ha.not_foreign haddr

theorem World.accounts_foreign {w : World} {addr : Address} {acc : Account}
    (haddr : addr ∈ S.foreign) : (w.setAccount addr acc).accounts systemAccountAddress =
      w.accounts systemAccountAddress := by
  apply World.accounts_setAccount_of_ne
  rintro rfl
  exact S.foreign_not_system haddr

theorem World.slot_foreign {w : World} {addr : Address} {acc : Account} (haddr : addr ∈ S.foreign)
    (s : B256) : (w.setAccount addr acc).slot s = w.slot s := by
  rw [World.slot, World.storage, World.accounts_foreign haddr, World.slot, World.storage]

theorem Registered.foreign {w : World} {h : History} {addr : Address} {acc : Account}
    (hR : Registered S chainId w h) (haddr : addr ∈ S.foreign) :
    Registered S chainId (w.setAccount addr acc) h := by
  refine hR.congr (World.code_foreign haddr) (World.slot_foreign haddr) fun h0 => ?_
  rwa [World.nonce, World.accounts_foreign haddr] at h0

theorem Registered.balances {w : World} {h : History} (hR : Registered S chainId w h)
    (f : Address → ℕ) : Registered S chainId (w.setBalances f) h :=
  hR.congr (fun _ _ => rfl) (fun _ => rfl) fun h0 => h0

theorem Registered.prune {w : World} {h : History} (hR : Registered S chainId w h) :
    Registered S chainId w.prune h :=
  hR.congr (fun a _ => w.code_prune a) (World.slot_prune hR.hosted)
    fun h0 => (w.nonce_prune _).symm.trans h0

variable {w w' : World} {h : History} {c : OpCall}

omit [Host] in
theorem OpTransition.not_isCreate_of {x : OpTransition} {k : UInt8}
    (htype : x.label.op.operationType = k) (hk : k ≠ opCreate) : ¬x.IsCreate := fun hc =>
  hk (htype.symm.trans hc)

theorem OpTransition.not_removes_of {x : OpTransition} {k : UInt8}
    (htype : x.label.op.operationType = k) (hd : k ≠ opDelete) (he : k ≠ opExpire) (a : Address) :
    ¬x.Removes a := by
  rintro ⟨h | h, -⟩
  · exact hd (htype.symm.trans h)
  · exact he (htype.symm.trans h)

theorem OpTransition.target_of_not {x : OpTransition} (hx : ¬x.IsCreate) :
    x.target = entityAddress x.label.op.entityKey := by
  rw [target, if_neg hx]

/-- Records from calldata are well-formed. -/
theorem wellFormed_createdRecord {attributes : List Attribute} {auth : PayloadReferenceAuth}
    (href : ReferenceAccepted w c attributes auth) :
    (createdRecord w c attributes auth).WellFormed := by
  obtain ⟨_, -, haccepted⟩ := acceptedReference_of_ok href.valid
  exact .of_converted href.names href.convert rfl haccepted.contentType_length

theorem wellFormed_updatedRecord (e : EntityRlp) {attributes : List Attribute}
    {auth : PayloadReferenceAuth} (href : ReferenceAccepted w c attributes auth) :
    (updatedRecord e c attributes auth).WellFormed := by
  obtain ⟨_, -, haccepted⟩ := acceptedReference_of_ok href.valid
  exact .of_converted href.names href.convert rfl haccepted.contentType_length

/-- An accepted create mints. -/
theorem mintChange_of_create (hS : Sound S ⟨w, c, w'⟩) (hchain : c.ctx.chainId = chainId)
    {attributes : List Attribute} {auth : PayloadReferenceAuth}
    (htype : c.op.operationType = opCreate) (href : ReferenceAccepted w c attributes auth)
    (hnonce : (readNonce w c.ctx.caller).toNat + 1 < 2 ^ 32)
    (heffect : Effect w w' (entityAddress (mintedKey w c.ctx))
      (createdRecord w c attributes auth).encodeAsCode (entityCount w) []
      (createdRecord w c attributes auth).annotations
      [(.payloadReferenceNonce c.ctx.caller auth.nonce, 1),
        (.nonces c.ctx.caller, u32ToStorage (readNonce w c.ctx.caller + 1)),
        (.entityCount, u64ToStorage (entityCount w + 1)),
        (.idToAddr (entityCount w), addressToStorage (entityAddress (mintedKey w c.ctx))),
        (.addrToId (entityAddress (mintedKey w c.ctx)), u64ToStorage (entityCount w))]
      ⟨mintedKey w c.ctx, opCreate, c.ctx.caller,
        clipU32 (satAdd c.ctx.currentBlock c.op.btl.toUInt64), 0⟩) :
    MintChange S chainId w w' c.ctx (createdRecord w c attributes auth) := by
  obtain ⟨hslots, haccounts⟩ := hS
  obtain ⟨hidm, haddrm⟩ := hslots.mint htype
  have hwf := wellFormed_createdRecord href
  have hall : S.HasAccounts (createdRecord w c attributes auth).annotations :=
    fun x hx => haccounts.posts x (.create htype href.convert href.valid hx)
  have hmem := haccounts.mint htype
  rw [hchain] at hmem
  -- All five slots are in the scope, so they are read back by name.
  have hread := heffect.slot_by_name (show ∀ p ∈ (_ : List (SlotName × B256)), p.1 ∈ S.slots by
    intro p hp
    simp only [List.mem_cons, List.not_mem_nil, or_false] at hp
    rcases hp with rfl | rfl | rfl | rfl | rfl
    · exact hslots.reference auth href.valid
    · exact hslots.nonces
    · exact S.count_mem
    · exact hidm
    · exact haddrm)
  simp only [List.foldl_cons, List.foldl_nil, Function.update_apply] at hread
  refine ⟨hchain, hmem, hslots.nonces, hidm, haddrm, hnonce, rfl, rfl, hwf,
    hall.coversAll fun x hx => hwf.zero_notMem hx,
    fun b hb => heffect.code_entityAt (fun _ hx => by simp at hx) hall hb, ?_, fun o ho => ?_,
    fun i hi => ?_, fun b hb => ?_⟩
  · refine (hread _ S.count_mem).trans ?_
    simp
  · refine (hread _ ho).trans ?_
    by_cases heq : o = c.ctx.caller
    · subst heq
      simp
    · simp only [heq, SlotName.nonces.injEq, reduceCtorEq, if_false]
      rfl
  · refine (hread _ hi).trans ?_
    simp only [SlotName.idToAddr.injEq, reduceCtorEq, if_false]
    rfl
  · refine (hread _ hb).trans ?_
    simp only [SlotName.addrToId.injEq, reduceCtorEq, if_false]
    rfl

/-- An accepted update, extension or transfer rewrites, or acts outside the entity accounts. -/
theorem change_of_rewrite (hR : Registered S chainId w h) (hS : Sound S ⟨w, c, w'⟩) {k : UInt8}
    (htype : c.op.operationType = k) (hcreate : k ≠ opCreate) (hdelete : k ≠ opDelete)
    (hexpire : k ≠ opExpire) {e e' : EntityRlp} {rem ins : List Annotation}
    {slots : List (SlotName × B256)} {event : EntityOperation}
    (hload : LiveAt w (entityAddress c.op.entityKey) e)
    (heffect : Effect w w' (entityAddress c.op.entityKey) e'.encodeAsCode
      (readEntityId w (entityAddress c.op.entityKey)) rem ins slots event)
    (hkey : e'.key = e.key) (hcreator : e'.creator = e.creator)
    (hcreated : e'.createdAtBlock = e.createdAtBlock) (hwf : e.WellFormed → e'.WellFormed)
    (hposts : ∀ x ∈ e'.annotations, x ∈ e.annotations ∨ Posts w c x)
    (hrem : ∀ x ∈ rem, x ∈ e.annotations) (hins : ∀ x ∈ ins, x ∈ e'.annotations)
    (hslots : ∀ p ∈ slots, p.1 ∈ S.slots ∧ ∃ o m, p.1 = .payloadReferenceNonce o m) :
    Change S chainId ⟨w, c, w'⟩ := by
  have hnc : ¬OpTransition.IsCreate ⟨w, c, w'⟩ := OpTransition.not_isCreate_of htype hcreate
  have htarget : OpTransition.target ⟨w, c, w'⟩ = entityAddress c.op.entityKey :=
    OpTransition.target_of_not hnc
  have hnew : S.HasAccounts e'.annotations := hS.accounts.hasAccounts hnc hload hposts
  have hcode : ∀ b, S.EntityAt chainId b →
      w'.code b = if b = entityAddress c.op.entityKey then e'.encodeAsCode else w.code b :=
    fun b hb => heffect.code_entityAt
      (hS.accounts.hasAccounts hnc hload fun x hx => .inl (hrem x hx))
      (fun x hx => hnew x (hins x hx)) hb
  have hslot : ∀ n ∈ S.slots, (∀ o m, n ≠ .payloadReferenceNonce o m) →
      w'.slot n.slot = w.slot n.slot := by
    intro n hn hne
    refine heffect.slot_of_notMem (fun p hp => (hslots p hp).1) hn fun p hp heq => ?_
    obtain ⟨-, o, m, hp⟩ := hslots p hp
    exact hne o m (heq.symm.trans hp)
  by_cases hat : S.EntityAt chainId (entityAddress c.op.entityKey)
  · have hwf' := hwf (hR.recorded _ e ⟨hat, hload⟩).wellFormed
    refine .rewrite e e' hnc (OpTransition.not_removes_of htype hdelete hexpire) ?_
    rw [htarget]
    exact ⟨⟨hat, hload⟩, hkey, hcreator, hcreated, hwf',
      hnew.coversAll fun x hx => hwf'.zero_notMem hx, hcode, hslot⟩
  · refine .outside e hnc (htarget ▸ hload) ?_
    rw [htarget]
    refine ⟨hat, fun b hb => ?_, fun n hn hne _ _ => hslot n hn hne⟩
    have hne : b ≠ entityAddress c.op.entityKey := by
      rintro rfl
      exact hat hb
    rw [hcode b hb, if_neg hne]

omit [Host] in
theorem mem_deletedAnnotations {e : EntityRlp} {key : B256} {x : Annotation}
    (hx : x ∈ deletedAnnotations e key) :
    x ∈ e.annotations ∨ x = ⟨annotKey, b256Bytes key, false⟩ := by
  simp only [deletedAnnotations, EntityRlp.annotations, builtInAnnotations, List.mem_append,
    List.mem_cons, List.not_mem_nil, or_false] at hx ⊢
  tauto

omit [Host] in
theorem OpTransition.not_isCreate_of_remove {x : OpTransition}
    (htype : x.label.op.operationType = opDelete ∨ x.label.op.operationType = opExpire) :
    ¬x.IsCreate := by
  rcases htype with ht | ht
  · exact not_isCreate_of ht (by decide)
  · exact not_isCreate_of ht (by decide)

/-- An accepted deletion or expiry removes, or acts outside the entity accounts. -/
theorem change_of_remove (hS : Sound S ⟨w, c, w'⟩)
    (htype : c.op.operationType = opDelete ∨ c.op.operationType = opExpire) {e : EntityRlp}
    {event : EntityOperation} (hload : LiveAt w (entityAddress c.op.entityKey) e)
    (heffect : Effect w w' (entityAddress c.op.entityKey) []
      (readEntityId w (entityAddress c.op.entityKey)) (deletedAnnotations e c.op.entityKey) []
      [(.idToAddr (readEntityId w (entityAddress c.op.entityKey)), 0),
        (.addrToId (entityAddress c.op.entityKey), 0)] event) :
    Change S chainId ⟨w, c, w'⟩ := by
  have hnc : ¬OpTransition.IsCreate ⟨w, c, w'⟩ := OpTransition.not_isCreate_of_remove htype
  have htarget : OpTransition.target ⟨w, c, w'⟩ = entityAddress c.op.entityKey :=
    OpTransition.target_of_not hnc
  have hall : S.HasAccounts (deletedAnnotations e c.op.entityKey) := by
    refine hS.accounts.hasAccounts hnc hload fun x hx => (mem_deletedAnnotations hx).imp_right ?_
    rintro rfl
    exact .remove htype
  have hcode : ∀ b, S.EntityAt chainId b →
      w'.code b = if b = entityAddress c.op.entityKey then [] else w.code b :=
    fun b hb => heffect.code_entityAt hall (fun _ hx => by simp at hx) hb
  have hslot : ∀ n ∈ S.slots, w'.slot n.slot =
      if n = .idToAddr (readEntityId w (entityAddress c.op.entityKey)) ∨
        n = .addrToId (entityAddress c.op.entityKey) then 0 else w.slot n.slot := by
    intro n hn
    rw [heffect.slot_by_name ?_ n hn]
    · simp only [List.foldl_cons, List.foldl_nil, Function.update_apply]
      split_ifs with h1 h2 h3 h4 h5 <;> tauto
    · intro p hp
      simp only [List.mem_cons, List.not_mem_nil, or_false] at hp
      rcases hp with rfl | rfl
      · exact (hS.slots.target hnc).2
      · exact (hS.slots.target hnc).1
  by_cases hat : S.EntityAt chainId (entityAddress c.op.entityKey)
  · refine .remove e ⟨htype, rfl⟩ ?_
    rw [htarget]
    exact ⟨⟨hat, hload⟩, hcode, hslot⟩
  · refine .outside e hnc (htarget ▸ hload) ?_
    rw [htarget]
    refine ⟨hat, fun b hb => ?_, fun n hn _ hne hne' => ?_⟩
    · have hne : b ≠ entityAddress c.op.entityKey := by
        rintro rfl
        exact hat hb
      rw [hcode b hb, if_neg hne]
    · rw [hslot n hn, if_neg (by tauto)]

omit [Host] in
theorem droppedAnnotations_subset {e e' : EntityRlp} {x : Annotation}
    (hx : x ∈ droppedAnnotations e e') : x ∈ e.annotations :=
  updatable_subset_annotations (List.mem_of_mem_filter hx)

omit [Host] in
/-- A rewritten record keeps the annotations of creator, creation block and key. -/
theorem mem_annotations_of_rewrite (e e' : EntityRlp) (hcreator : e'.creator = e.creator)
    (hkey : e'.key = e.key) (hcreated : e'.createdAtBlock = e.createdAtBlock) {x : Annotation}
    (hx : x ∈ e'.annotations) : x ∈ e.annotations ∨ x = ⟨annotOwner, addressBytes e'.owner, false⟩ ∨
      x = ⟨annotExpiration, u64Bytes e'.expiresAt, true⟩ ∨
      x ∈ updatableAnnotations e'.contentType e'.attributes := by
  rcases List.mem_append.mp hx with hx | hx
  · simp only [builtInAnnotations, hcreator, hkey, hcreated, List.mem_cons, List.not_mem_nil,
      or_false] at hx
    rcases hx with h | h | h | h | h | h | h
    · exact .inl (List.mem_append_left _ (by simp [h, builtInAnnotations]))
    · exact .inl (List.mem_append_left _ (by simp [h, builtInAnnotations]))
    · exact .inl (List.mem_append_left _ (by simp [h, builtInAnnotations]))
    · exact .inr (.inl h)
    · exact .inl (List.mem_append_left _ (by simp [h, builtInAnnotations]))
    · exact .inr (.inr (.inl h))
    · exact .inr (.inr (.inr (h ▸ List.mem_cons_self)))
  · exact .inr (.inr (.inr (List.mem_cons_of_mem _ hx)))

omit [Host] in
theorem owner_mem_annotations (e : EntityRlp) :
    ⟨annotOwner, addressBytes e.owner, false⟩ ∈ e.annotations :=
  List.mem_append_left _ (by simp [builtInAnnotations])

omit [Host] in
theorem key_mem_annotations (e : EntityRlp) :
    ⟨annotKey, b256Bytes e.key, false⟩ ∈ e.annotations :=
  List.mem_append_left _ (by simp [builtInAnnotations])

omit [Host] in
theorem expiration_mem_annotations (e : EntityRlp) :
    ⟨annotExpiration, u64Bytes e.expiresAt, true⟩ ∈ e.annotations :=
  List.mem_append_left _ (by simp [builtInAnnotations])

theorem posts_updatedRecord {e : EntityRlp} {attributes : List Attribute}
    {auth : PayloadReferenceAuth} (htype : c.op.operationType = opUpdate)
    (href : ReferenceAccepted w c attributes auth) {x : Annotation}
    (hx : x ∈ (updatedRecord e c attributes auth).annotations) :
    x ∈ e.annotations ∨ Posts w c x := by
  rcases mem_annotations_of_rewrite e (updatedRecord e c attributes auth) rfl rfl rfl hx with h | h | h | h
  · exact .inl h
  · exact .inl (h ▸ owner_mem_annotations e)
  · exact .inl (h ▸ expiration_mem_annotations e)
  · exact .inr (.update htype href.convert href.valid h)

theorem posts_extendedRecord {e : EntityRlp} (htype : c.op.operationType = opExtend)
    {x : Annotation} (hx : x ∈ (extendedRecord e c).annotations) :
    x ∈ e.annotations ∨ Posts w c x := by
  rcases mem_annotations_of_rewrite e (extendedRecord e c) rfl rfl rfl hx with h | h | h | h
  · exact .inl h
  · exact .inl (h ▸ owner_mem_annotations e)
  · exact .inr (h ▸ .extend htype)
  · exact .inl (updatable_subset_annotations h)

theorem posts_transferredRecord {e : EntityRlp} (htype : c.op.operationType = opTransfer)
    {x : Annotation} (hx : x ∈ (transferredRecord e c).annotations) :
    x ∈ e.annotations ∨ Posts w c x := by
  rcases mem_annotations_of_rewrite e (transferredRecord e c) rfl rfl rfl hx with h | h | h | h
  · exact .inl h
  · exact .inr (h ▸ .transfer htype)
  · exact .inl (h ▸ expiration_mem_annotations e)
  · exact .inl (updatable_subset_annotations h)

/-- **Every accepted operation mints, rewrites, removes, or acts outside the entity accounts.** -/
theorem change_of_applied (hR : Registered S chainId w h) (hS : Sound S ⟨w, c, w'⟩)
    (hchain : c.ctx.chainId = chainId) (happ : Applied w c w') :
    Change S chainId ⟨w, c, w'⟩ := by
  cases happ with
  | create attributes auth htype hbtl href hnonce heffect =>
    exact .mint _ htype (mintChange_of_create hS hchain htype href hnonce heffect)
  | update e attributes auth htype href howned heffect =>
    refine change_of_rewrite hR hS htype (by decide) (by decide) (by decide) howned.load heffect
      rfl rfl rfl (fun _ => wellFormed_updatedRecord e href)
      (fun x hx => posts_updatedRecord htype href hx) (fun x hx => droppedAnnotations_subset hx)
      (fun x hx => droppedAnnotations_subset hx) (fun p hp => ?_)
    obtain rfl := List.mem_singleton.mp hp
    exact ⟨hS.slots.reference auth href.valid, _, _, rfl⟩
  | extend e htype hbtl howned hlater heffect =>
    refine change_of_rewrite hR hS htype (by decide) (by decide) (by decide) howned.load heffect
      rfl rfl rfl (fun hwf => hwf.mono rfl rfl rfl) (fun x hx => posts_extendedRecord htype hx)
      (fun x hx => ?_) (fun x hx => ?_) (by simp)
    · rw [List.mem_singleton.mp hx]
      exact expiration_mem_annotations e
    · rw [List.mem_singleton.mp hx]
      exact expiration_mem_annotations (extendedRecord e c)
  | transfer e htype howned hzero hself heffect =>
    refine change_of_rewrite hR hS htype (by decide) (by decide) (by decide) howned.load heffect
      rfl rfl rfl (fun hwf => hwf.mono rfl rfl rfl) (fun x hx => posts_transferredRecord htype hx)
      (fun x hx => ?_) (fun x hx => ?_) (by simp)
    · rw [List.mem_singleton.mp hx]
      exact owner_mem_annotations e
    · rw [List.mem_singleton.mp hx]
      exact owner_mem_annotations (transferredRecord e c)
  | delete e htype howned heffect => exact change_of_remove hS (.inl htype) howned.load heffect
  | expire e htype hload hexpired heffect => exact change_of_remove hS (.inr htype) hload heffect

theorem Applied.hosted (happ : Applied w c w')
    (hw : w.nonce systemAccountAddress = 0 → ∀ s, w.slot s = 0) :
    w'.nonce systemAccountAddress = 0 → ∀ s, w'.slot s = 0 := by
  cases happ with
  | create attributes auth htype hbtl href hnonce heffect => exact heffect.hosted_of hw
  | update e attributes auth htype href howned heffect => exact heffect.hosted_of hw
  | extend e htype hbtl howned hlater heffect => exact heffect.hosted_of hw
  | transfer e htype howned hzero hself heffect => exact heffect.hosted_of hw
  | delete e htype howned heffect => exact heffect.hosted_of hw
  | expire e htype hload hexpired heffect => exact heffect.hosted_of hw

/-- **Step**: an accepted operation keeps the invariant. -/
theorem Registered.step (hR : Registered S chainId w h) (hchange : Change S chainId ⟨w, c, w'⟩)
    (happ : Applied w c w') : Registered S chainId w' (h ++ [⟨w, c, w'⟩]) := by
  have hhost := happ.hosted hR.hosted
  cases hchange with
  | mint e hx hc => exact hR.mint hx rfl hc hhost
  | rewrite e e' hx hkeep hc => exact hR.rewrite hx hkeep hc hhost
  | remove e hx hc => exact hR.remove hx hc hhost
  | outside e hx hload hc => exact hR.outside hx rfl hc hhost

/-- Every accepted operation of the history is inside the scope. -/
def SoundHistory (S : Scope) (h : History) : Prop := ∀ x ∈ h, Sound S x

/-- Before every accepted operation only entities look like entities. -/
def OnlyEntitiesIn (S : Scope) (chainId : UInt64) (h : History) : Prop :=
  ∀ x ∈ h, OnlyEntities S chainId x.pre

/-- What is known of an accepted operation when it is made. -/
structure Made (S : Scope) (chainId : UInt64) (h : History) (x : OpTransition) : Prop where
  registered : Registered S chainId x.pre h
  sound : Sound S x
  chain : x.label.ctx.chainId = chainId
  applied : Applied x.pre x.label x.post
  change : Change S chainId x
  registered' : Registered S chainId x.post (h ++ [x])

/-- **Induction over sound runs**: what accepted operations of the scope keep, next to the
    registry invariant, holds after every sound run. -/
theorem sound_invariant {Q : World → History → Prop} (hgen : Q World.genesis [])
    (hop : ∀ h x, Made S chainId h x → SoundHistory S h → Q x.pre h → Q x.post (h ++ [x]))
    (hforeign : ∀ w h addr acc, Registered S chainId w h → SoundHistory S h → Q w h →
      addr ∈ S.foreign → Q (w.setAccount addr acc) h)
    (hbalances : ∀ w h f, Q w h → Q (w.setBalances f) h)
    (hprune : ∀ w h, Registered S chainId w h → Q w h → Q w.prune h)
    {steps : List Chain.Step} (hrun : Chain.AllowedRun chainId S.foreign steps)
    (hsound : SoundHistory S (Chain.run steps).history) :
    Registered S chainId (Chain.run steps).world (Chain.run steps).history ∧
      Q (Chain.run steps).world (Chain.run steps).history := by
  have hall := Chain.invariant (Q := fun w h => SoundHistory S h →
    Registered S chainId w h ∧ Q w h) (fun _ => ⟨registered_genesis, hgen⟩)
    (fun w h c w' hQ hchain hstep hs => ?_) (fun w h addr acc hQ ha hs => ?_)
    (fun w h f hQ hs => ?_) (fun w h hQ hs => ?_) hrun
  · exact hall hsound
  · have hh : SoundHistory S h := fun y hy => hs y (List.mem_append_left _ hy)
    have hx : Sound S ⟨w, c, w'⟩ := hs _ (by simp)
    obtain ⟨hR, hq⟩ := hQ hh
    have happ := applied_of_opStep hx.slots hstep
    have hchange := change_of_applied hR hx hchain happ
    have hR' := hR.step hchange happ
    exact ⟨hR', hop h ⟨w, c, w'⟩ ⟨hR, hx, hchain, happ, hchange, hR'⟩ hh hq⟩
  · obtain ⟨hR, hq⟩ := hQ hs
    exact ⟨hR.foreign ha, hforeign w h addr acc hR hs hq ha⟩
  · obtain ⟨hR, hq⟩ := hQ hs
    exact ⟨hR.balances f, hbalances w h f hq⟩
  · obtain ⟨hR, hq⟩ := hQ hs
    exact ⟨hR.prune, hprune w h hR hq⟩

/-- Where only entities look like entities, no operation acts outside the entity accounts. -/
theorem OnlyEntities.not_outside {w w' w'' : World} {a : Address} {e : EntityRlp}
    (honly : OnlyEntities S chainId w) (hload : LiveAt w a e) :
    ¬OutsideChange S chainId w' w'' a := fun hc =>
  hc.outside (honly a e hload)

/-- **The registry invariant holds after every sound run**, and held before each of its accepted
    operations. -/
theorem registered_run {steps : List Chain.Step} (hrun : Chain.AllowedRun chainId S.foreign steps)
    (hsound : SoundHistory S (Chain.run steps).history) :
    Registered S chainId (Chain.run steps).world (Chain.run steps).history ∧
      Runs.AllSplits (Made S chainId) (Chain.run steps).history :=
  sound_invariant (Q := fun _ h => Runs.AllSplits (Made S chainId) h) .nil
    (fun _ _ hmade _ hq => hq.snoc hmade) (fun _ _ _ _ _ _ hq _ => hq) (fun _ _ _ hq => hq)
    (fun _ _ _ hq => hq) hrun hsound

end Runs

end Arkiv
