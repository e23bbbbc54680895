import Mathlib
import Arkiv.Registry.Authority

/-!
# Accepted operations by the records around them

`Change` says where an accepted operation acts, `Effect` what it writes. Where
only entities look like entities the two meet: every accepted operation mints a
record, replaces one by another or removes one, and its postings and its event
are read off the records.

## Main definitions

- `RecordDiff` — the postings between two records of one entity
- `Edited` — the three kinds of accepted operations
- `Made.edited` — every accepted operation is one of them
-/

namespace Arkiv

open ByteString

/-- Removals and insertions that lead from the annotations of one record to those of another. -/
structure RecordDiff (e e' : EntityRlp) (rem ins : List Annotation) : Prop where
  rem_old : ∀ a ∈ rem, a ∈ e.annotations
  ins_new : ∀ a ∈ ins, a ∈ e'.annotations
  kept : ∀ a ∈ e.annotations, a ∉ rem → a ∈ e'.annotations
  born : ∀ a ∈ e'.annotations, a ∉ e.annotations → a ∈ ins

/-- The annotations that no update touches. -/
def EntityRlp.fixedAnnotations (e : EntityRlp) : List Annotation :=
  [⟨annotAll, [], false⟩,
   ⟨annotCreator, addressBytes e.creator, false⟩,
   ⟨annotCreatedAtBlock, u64Bytes e.createdAtBlock, true⟩,
   ⟨annotKey, b256Bytes e.key, false⟩]

theorem EntityRlp.mem_annotations {e : EntityRlp} {a : Annotation} :
    a ∈ e.annotations ↔ a ∈ e.fixedAnnotations ∨ a = ⟨annotOwner, addressBytes e.owner, false⟩ ∨
      a = ⟨annotExpiration, u64Bytes e.expiresAt, true⟩ ∨
      a ∈ updatableAnnotations e.contentType e.attributes := by
  simp only [EntityRlp.annotations, EntityRlp.fixedAnnotations, builtInAnnotations,
    updatableAnnotations, List.mem_append, List.mem_cons, List.not_mem_nil, or_false, or_assoc]
  exact or_congr_right (or_congr_right (or_congr_right or_left_comm))

/-- Between two records of one entity only owner, expiration and what an update may change
    differ. -/
theorem EntityRlp.fixedAnnotations_congr {e e' : EntityRlp} (hcreator : e'.creator = e.creator)
    (hkey : e'.key = e.key) (hcreated : e'.createdAtBlock = e.createdAtBlock) :
    e'.fixedAnnotations = e.fixedAnnotations := by
  simp only [EntityRlp.fixedAnnotations, hcreator, hkey, hcreated]

/-- The keys that no update touches. -/
def systemKeys : List Bytes :=
  [annotAll, annotCreator, annotCreatedAtBlock, annotKey, annotOwner, annotExpiration]

theorem updatable_key_notMem {e : EntityRlp} (hwf : e.WellFormed) {a : Annotation}
    (ha : a ∈ updatableAnnotations e.contentType e.attributes) : a.key ∉ systemKeys := by
  rcases List.mem_cons.mp ha with rfl | ha
  · show annotContentType ∉ systemKeys
    decide
  · obtain ⟨y, hy, rfl⟩ := List.mem_map.mp ha
    have hdollar : ∀ k ∈ systemKeys, k = 0x24 :: k.tail := by decide
    intro hk
    exact (hwf.keys y hy).ne_builtIn (hdollar _ hk)

theorem fixed_key_mem {e : EntityRlp} {a : Annotation} (ha : a ∈ e.fixedAnnotations) :
    a.key ∈ [annotAll, annotCreator, annotCreatedAtBlock, annotKey] := by
  simp only [EntityRlp.fixedAnnotations, List.mem_cons, List.not_mem_nil, or_false] at ha
  rcases ha with rfl | rfl | rfl | rfl <;> simp

/-- An annotation outside the system keys is one that an update may change. -/
theorem updatable_of_key_notMem {e : EntityRlp} {a : Annotation} (ha : a ∈ e.annotations)
    (hk : a.key ∉ systemKeys) : a ∈ updatableAnnotations e.contentType e.attributes := by
  rcases EntityRlp.mem_annotations.mp ha with h | rfl | rfl | h
  · have hsystem : ∀ k ∈ [annotAll, annotCreator, annotCreatedAtBlock, annotKey],
        k ∈ systemKeys := by decide
    exact absurd (hsystem _ (fixed_key_mem h)) hk
  · exact absurd (by simp [systemKeys]) hk
  · exact absurd (by simp [systemKeys]) hk
  · exact h

theorem eq_expiration_of_key {e : EntityRlp} (hwf : e.WellFormed) {a : Annotation}
    (ha : a ∈ e.annotations) (hk : a.key = annotExpiration) :
    a = ⟨annotExpiration, u64Bytes e.expiresAt, true⟩ := by
  rcases EntityRlp.mem_annotations.mp ha with h | rfl | h | h
  · have hfixed := fixed_key_mem h
    rw [hk] at hfixed
    exact absurd hfixed (by decide)
  · exact absurd (show annotOwner = annotExpiration from hk) (by decide)
  · exact h
  · exact absurd (by simp [hk, systemKeys]) (updatable_key_notMem hwf h)

theorem eq_owner_of_key {e : EntityRlp} (hwf : e.WellFormed) {a : Annotation}
    (ha : a ∈ e.annotations) (hk : a.key = annotOwner) :
    a = ⟨annotOwner, addressBytes e.owner, false⟩ := by
  rcases EntityRlp.mem_annotations.mp ha with h | h | rfl | h
  · have hfixed := fixed_key_mem h
    rw [hk] at hfixed
    exact absurd hfixed (by decide)
  · exact h
  · exact absurd (show annotExpiration = annotOwner from hk) (by decide)
  · exact absurd (by simp [hk, systemKeys]) (updatable_key_notMem hwf h)

/-- Where the new record still carries a removed key and value, they are posted again. -/
def Reposts (e' : EntityRlp) (rem ins : List Annotation) : Prop :=
  ∀ a ∈ rem, Carries e'.annotations a.key a.value → Carries ins a.key a.value

theorem reposts_extend {c : OpCall} {e : EntityRlp} (hwf : e.WellFormed)
    (hlater : e.expiresAt < (extendedRecord e c).expiresAt) :
    Reposts (extendedRecord e c) [⟨annotExpiration, u64Bytes e.expiresAt, true⟩]
      [⟨annotExpiration, u64Bytes (extendedRecord e c).expiresAt, true⟩] := by
  rintro a ha ⟨b, hb, hkey, hvalue⟩
  have hwf' : (extendedRecord e c).WellFormed := hwf.mono rfl rfl rfl
  rw [List.mem_singleton.mp ha] at hkey hvalue
  rw [eq_expiration_of_key hwf' hb hkey] at hvalue
  rw [u64Bytes_inj.mp hvalue] at hlater
  exact absurd hlater (UInt64.lt_irrefl _)

theorem reposts_transfer {c : OpCall} {e : EntityRlp} (hwf : e.WellFormed)
    (hself : c.op.newOwner ≠ e.owner) :
    Reposts (transferredRecord e c) [⟨annotOwner, addressBytes e.owner, false⟩]
      [⟨annotOwner, addressBytes c.op.newOwner, false⟩] := by
  rintro a ha ⟨b, hb, hkey, hvalue⟩
  have hwf' : (transferredRecord e c).WellFormed := hwf.mono rfl rfl rfl
  rw [List.mem_singleton.mp ha] at hkey hvalue
  rw [eq_owner_of_key hwf' hb hkey] at hvalue
  exact absurd (addressBytes_inj.mp hvalue) hself

/-- No key and value of one annotation list stays in one tier and goes in the other. -/
def SameTiers (old new : List Annotation) : Prop :=
  ∀ a ∈ old, a ∉ new → ∀ b ∈ new, b.key = a.key → b.value = a.value → b ∉ old

theorem reposts_update {c : OpCall} {e : EntityRlp} {attributes : List Attribute}
    {auth : PayloadReferenceAuth} (hwf : e.WellFormed)
    (htiers : SameTiers (updatableAnnotations e.contentType e.attributes)
      (updatableAnnotations auth.contentType attributes)) :
    Reposts (updatedRecord e c attributes auth)
      (droppedAnnotations e (updatedRecord e c attributes auth))
      (droppedAnnotations (updatedRecord e c attributes auth) e) := by
  rintro a ha ⟨b, hb, hkey, hvalue⟩
  obtain ⟨hold, hnew⟩ := List.mem_filter.mp ha
  have hb' := updatable_of_key_notMem hb (hkey ▸ updatable_key_notMem hwf hold)
  refine ⟨b, List.mem_filter.mpr ⟨hb', decide_eq_true ?_⟩, hkey, hvalue⟩
  exact htiers a hold (of_decide_eq_true hnew) b hb' hkey hvalue

section Diffs

variable [Host] {c : OpCall} (e : EntityRlp)

omit [Host] in
theorem recordDiff_update (attributes : List Attribute) (auth : PayloadReferenceAuth) :
    RecordDiff e (updatedRecord e c attributes auth)
      (droppedAnnotations e (updatedRecord e c attributes auth))
      (droppedAnnotations (updatedRecord e c attributes auth) e) := by
  have hfixed : (updatedRecord e c attributes auth).fixedAnnotations = e.fixedAnnotations :=
    EntityRlp.fixedAnnotations_congr rfl rfl rfl
  refine ⟨fun a ha => droppedAnnotations_subset ha, fun a ha => droppedAnnotations_subset ha,
    fun a ha hrem => ?_, fun a ha hnew => ?_⟩
  · rw [EntityRlp.mem_annotations, hfixed]
    rcases EntityRlp.mem_annotations.mp ha with h | h | h | h
    · exact .inl h
    · exact .inr (.inl h)
    · exact .inr (.inr (.inl h))
    · refine .inr (.inr (.inr ?_))
      by_contra hno
      exact hrem (List.mem_filter.mpr ⟨h, by simpa using hno⟩)
  · rw [EntityRlp.mem_annotations, hfixed] at ha
    rw [EntityRlp.mem_annotations] at hnew
    rcases ha with h | h | h | h
    · exact absurd (.inl h) hnew
    · exact absurd (.inr (.inl h)) hnew
    · exact absurd (.inr (.inr (.inl h))) hnew
    · exact List.mem_filter.mpr ⟨h, by simpa using fun hu => hnew (.inr (.inr (.inr hu)))⟩

omit [Host] in
theorem recordDiff_extend :
    RecordDiff e (extendedRecord e c) [⟨annotExpiration, u64Bytes e.expiresAt, true⟩]
      [⟨annotExpiration, u64Bytes (extendedRecord e c).expiresAt, true⟩] := by
  have hfixed : (extendedRecord e c).fixedAnnotations = e.fixedAnnotations :=
    EntityRlp.fixedAnnotations_congr rfl rfl rfl
  refine ⟨fun a ha => ?_, fun a ha => ?_, fun a ha hrem => ?_, fun a ha hnew => ?_⟩
  · rw [List.mem_singleton.mp ha]
    exact expiration_mem_annotations e
  · rw [List.mem_singleton.mp ha]
    exact expiration_mem_annotations (extendedRecord e c)
  · rw [EntityRlp.mem_annotations, hfixed]
    rcases EntityRlp.mem_annotations.mp ha with h | h | h | h
    · exact .inl h
    · exact .inr (.inl h)
    · exact absurd (List.mem_singleton.mpr h) hrem
    · exact .inr (.inr (.inr h))
  · rw [EntityRlp.mem_annotations, hfixed] at ha
    rw [EntityRlp.mem_annotations] at hnew
    rcases ha with h | h | h | h
    · exact absurd (.inl h) hnew
    · exact absurd (.inr (.inl h)) hnew
    · exact List.mem_singleton.mpr h
    · exact absurd (.inr (.inr (.inr h))) hnew

omit [Host] in
theorem recordDiff_transfer :
    RecordDiff e (transferredRecord e c) [⟨annotOwner, addressBytes e.owner, false⟩]
      [⟨annotOwner, addressBytes c.op.newOwner, false⟩] := by
  have hfixed : (transferredRecord e c).fixedAnnotations = e.fixedAnnotations :=
    EntityRlp.fixedAnnotations_congr rfl rfl rfl
  refine ⟨fun a ha => ?_, fun a ha => ?_, fun a ha hrem => ?_, fun a ha hnew => ?_⟩
  · rw [List.mem_singleton.mp ha]
    exact owner_mem_annotations e
  · rw [List.mem_singleton.mp ha]
    exact owner_mem_annotations (transferredRecord e c)
  · rw [EntityRlp.mem_annotations, hfixed]
    rcases EntityRlp.mem_annotations.mp ha with h | h | h | h
    · exact .inl h
    · exact absurd (List.mem_singleton.mpr h) hrem
    · exact .inr (.inr (.inl h))
    · exact .inr (.inr (.inr h))
  · rw [EntityRlp.mem_annotations, hfixed] at ha
    rw [EntityRlp.mem_annotations] at hnew
    rcases ha with h | h | h | h
    · exact absurd (.inl h) hnew
    · exact List.mem_singleton.mpr h
    · exact absurd (.inr (.inr (.inl h))) hnew
    · exact absurd (.inr (.inr (.inr h))) hnew

end Diffs

variable [Host]

/-- The slots that a create writes. -/
def createdSlots (w : World) (ctx : CallContext) (m : B256) : List (SlotName × B256) :=
  [(.payloadReferenceNonce ctx.caller m, 1),
    (.nonces ctx.caller, u32ToStorage (readNonce w ctx.caller + 1)),
    (.entityCount, u64ToStorage (entityCount w + 1)),
    (.idToAddr (entityCount w), addressToStorage (entityAddress (mintedKey w ctx))),
    (.addrToId (entityAddress (mintedKey w ctx)), u64ToStorage (entityCount w))]

/-- The slots that a deletion clears. -/
def removedSlots (w : World) (a : Address) : List (SlotName × B256) :=
  [(.idToAddr (readEntityId w a), 0), (.addrToId a, 0)]

/-- An update does not keep a key and value in one tier while it drops them in the other. -/
def KeepsTiers (x : OpTransition) : Prop :=
  x.label.op.operationType = opUpdate → ∀ e attributes auth, LiveAt x.pre x.target e →
    convertAttributes x.label.op.attributes = .ok attributes →
    validatePayloadReference x.label.op.payload x.label.ctx.chainId = .ok auth →
    SameTiers (updatableAnnotations e.contentType e.attributes)
      (updatableAnnotations auth.contentType attributes)

/-- An accepted operation on the entities: the records before and after it, its postings and its
    event. -/
inductive Edited (S : Scope) (chainId : UInt64) (x : OpTransition) : Prop where
  | mint (e : EntityRlp) (m : B256) (hx : x.IsCreate)
      (hm : .payloadReferenceNonce x.label.ctx.caller m ∈ S.slots)
      (hchange : MintChange S chainId x.pre x.post x.label.ctx e)
      (heffect : Effect x.pre x.post x.target e.encodeAsCode (entityCount x.pre) [] e.annotations
        (createdSlots x.pre x.label.ctx m) ⟨e.key, opCreate, e.owner, clipU32 e.expiresAt, 0⟩)
  | rewrite (e e' : EntityRlp) (rem ins : List Annotation) (slots : List (SlotName × B256))
      (hx : ¬x.IsCreate)
      (htype : x.label.op.operationType ∈ [opUpdate, opExtend, opTransfer])
      (hchange : RewriteChange S chainId x.pre x.post x.target e e')
      (hdiff : RecordDiff e e' rem ins) (hrepost : KeepsTiers x → Reposts e' rem ins)
      (hslots : ∀ p ∈ slots, p.1 ∈ S.slots ∧ ∃ m, p.1 = .payloadReferenceNonce x.label.ctx.caller m)
      (heffect : Effect x.pre x.post x.target e'.encodeAsCode (readEntityId x.pre x.target) rem ins
        slots ⟨x.label.op.entityKey, x.label.op.operationType, e'.owner, clipU32 e'.expiresAt, 0⟩)
  | remove (e : EntityRlp) (hx : x.Removes x.target)
      (hchange : RemoveChange S chainId x.pre x.post x.target e)
      (heffect : Effect x.pre x.post x.target [] (readEntityId x.pre x.target)
        (deletedAnnotations e x.label.op.entityKey) [] (removedSlots x.pre x.target)
        ⟨x.label.op.entityKey, x.label.op.operationType, e.owner, clipU32 e.expiresAt, 0⟩)

variable {S : Scope} {chainId : UInt64} {h : History} {x : OpTransition}

theorem MintChange.target {e : EntityRlp} (hc : MintChange S chainId x.pre x.post x.label.ctx e)
    (hx : x.IsCreate) : x.target = entityAddress e.key := by
  rw [OpTransition.target, if_pos hx, hc.key]

/-- The two records of a rewriting operation are those around it. -/
theorem Made.rewriteChange (hmade : Made S chainId h x) (honly : OnlyEntities S chainId x.pre)
    {k : UInt8} (htype : x.label.op.operationType = k) (hcreate : k ≠ opCreate)
    (hdelete : k ≠ opDelete) (hexpire : k ≠ opExpire) {e e' : EntityRlp}
    (hload : LiveAt x.pre (entityAddress x.label.op.entityKey) e)
    (hpost : LiveAt x.post (entityAddress x.label.op.entityKey) e') :
    RewriteChange S chainId x.pre x.post x.target e e' := by
  have hnc : ¬x.IsCreate := OpTransition.not_isCreate_of htype hcreate
  have hkeep : ∀ a, ¬x.Removes a := OpTransition.not_removes_of htype hdelete hexpire
  rw [← OpTransition.target_of_not hnc] at hload hpost
  cases hmade.change with
  | mint f hx => exact absurd hx hnc
  | rewrite f f' hx _ hc =>
    obtain rfl := hc.live.2.unique hload
    have hlive := hc.live_iff.mp ⟨hc.live.1, hpost⟩
    rw [if_pos rfl] at hlive
    rwa [hlive]
  | remove f hx => exact absurd hx (hkeep _)
  | outside f hx hl hc => exact absurd hc (honly.not_outside hl)

theorem Made.removeChange (hmade : Made S chainId h x) (honly : OnlyEntities S chainId x.pre)
    (htype : x.label.op.operationType = opDelete ∨ x.label.op.operationType = opExpire)
    {e : EntityRlp} (hload : LiveAt x.pre (entityAddress x.label.op.entityKey) e) :
    RemoveChange S chainId x.pre x.post x.target e := by
  have hnc : ¬x.IsCreate := OpTransition.not_isCreate_of_remove htype
  have hx : x.Removes x.target := ⟨htype, rfl⟩
  rw [← OpTransition.target_of_not hnc] at hload
  cases hmade.change with
  | mint f hcreate => exact absurd hcreate hnc
  | rewrite f f' _ hkeep => exact absurd hx (hkeep _)
  | remove f _ hc =>
    obtain rfl := hc.live.2.unique hload
    exact hc
  | outside f _ hl hc => exact absurd hc (honly.not_outside hl)

theorem Made.mintChange (hmade : Made S chainId h x) (hx : x.IsCreate) {e : EntityRlp}
    (hpost : LiveAt x.post (entityAddress (mintedKey x.pre x.label.ctx)) e) :
    MintChange S chainId x.pre x.post x.label.ctx e := by
  cases hmade.change with
  | mint f _ hc =>
    have hlive := hc.live_new.2
    rw [hc.key] at hlive
    obtain rfl := hlive.unique hpost
    exact hc
  | rewrite f f' hnc => exact absurd hx hnc
  | remove f hr => exact absurd hx hr.not_isCreate
  | outside f hnc => exact absurd hx hnc

/-- **Every accepted operation is an edit** where only entities look like entities. -/
theorem Made.edited (hmade : Made S chainId h x) (honly : OnlyEntities S chainId x.pre) :
    Edited S chainId x := by
  have hS := hmade.sound.slots
  -- The record at the target is well-formed because it is a live entity.
  have hwf : ∀ {e : EntityRlp}, LiveAt x.pre (entityAddress x.label.op.entityKey) e →
      e.WellFormed := fun hload =>
    (hmade.registered.recorded _ _ ⟨honly _ _ hload, hload⟩).wellFormed
  cases hmade.applied with
  | create attributes auth htype hbtl href hnonce heffect =>
    have hx : x.IsCreate := htype
    refine .mint _ auth.nonce hx (hS.reference auth href.valid)
      (hmade.mintChange hx (heffect.liveAt_target (wellFormed_createdRecord href))) ?_
    rw [OpTransition.target, if_pos hx]
    exact heffect
  | update e attributes auth htype href howned heffect =>
    have hx : ¬x.IsCreate := OpTransition.not_isCreate_of htype (by decide)
    refine .rewrite e _ _ _ [(.payloadReferenceNonce x.label.ctx.caller auth.nonce, 1)] hx
      (by simp [htype])
      (hmade.rewriteChange honly htype (by decide) (by decide) (by decide) howned.load
        (heffect.liveAt_target (wellFormed_updatedRecord e href)))
      (recordDiff_update e attributes auth) (fun htiers => reposts_update (hwf howned.load) ?_)
      (fun p hp => ?_) ?_
    · refine htiers htype e attributes auth ?_ href.convert href.valid
      rw [OpTransition.target_of_not hx]
      exact howned.load
    · obtain rfl := List.mem_singleton.mp hp
      exact ⟨hS.reference auth href.valid, _, rfl⟩
    · rw [OpTransition.target_of_not hx, htype]
      exact heffect
  | extend e htype hbtl howned hlater heffect =>
    have hx : ¬x.IsCreate := OpTransition.not_isCreate_of htype (by decide)
    refine .rewrite e _ _ _ [] hx (by simp [htype])
      (hmade.rewriteChange honly htype (by decide) (by decide) (by decide) howned.load
        (heffect.liveAt_target ((hwf howned.load).mono rfl rfl rfl)))
      (recordDiff_extend e) (fun _ => reposts_extend (hwf howned.load) hlater) (by simp) ?_
    rw [OpTransition.target_of_not hx, htype]
    exact heffect
  | transfer e htype howned hzero hself heffect =>
    have hx : ¬x.IsCreate := OpTransition.not_isCreate_of htype (by decide)
    refine .rewrite e _ _ _ [] hx (by simp [htype])
      (hmade.rewriteChange honly htype (by decide) (by decide) (by decide) howned.load
        (heffect.liveAt_target ((hwf howned.load).mono rfl rfl rfl)))
      (recordDiff_transfer e) (fun _ => reposts_transfer (hwf howned.load) hself) (by simp) ?_
    rw [OpTransition.target_of_not hx, htype]
    exact heffect
  | delete e htype howned heffect =>
    have hx : ¬x.IsCreate := OpTransition.not_isCreate_of htype (by decide)
    refine .remove e ⟨.inl htype, rfl⟩ (hmade.removeChange honly (.inl htype) howned.load) ?_
    rw [OpTransition.target_of_not hx, htype]
    exact heffect
  | expire e htype hload hexpired heffect =>
    have hx : ¬x.IsCreate := OpTransition.not_isCreate_of htype (by decide)
    refine .remove e ⟨.inr htype, rfl⟩ (hmade.removeChange honly (.inr htype) hload) ?_
    rw [OpTransition.target_of_not hx, htype]
    exact heffect

/-- **The pair bitmaps after an operation**: the ID is posted when it is inserted, or was posted
    and is not removed; other IDs stay. -/
theorem Effect.postings {w w' : World} {target : Address} {code : Bytes} {i : UInt64}
    {rem ins : List Annotation} {slots : List (SlotName × B256)} {event : EntityOperation}
    (heffect : Effect w w' target code i rem ins slots event) (htarget : S.EntityAt chainId target)
    (hrem : S.CoversAll rem) (hins : S.CoversAll ins) {k v : Bytes} (hkv : S.Covers k v) {b : Bitmap}
    (hb : readPairBitmap w k v = .ok b) :
    ∃ b', readPairBitmap w' k v = .ok b' ∧
      ∀ j, j ∈ b' ↔ if j = i then Carries ins k v ∨ j ∈ b ∧ ¬Carries rem k v else j ∈ b := by
  obtain ⟨u, m, hu, hedits, hcode⟩ := heffect.edits
  have hpre : readPairBitmap u k v = .ok b := (readPairBitmap_congr (hu _)).trans hb
  obtain ⟨b', hb', hmem⟩ := hedits.postings hkv hrem hins hpre
  have hne : pairAddress k v ≠ target := (htarget.ne_pairAddress hkv.pair).symm
  have hpost : w'.code (pairAddress k v) = m.code (pairAddress k v) := by rw [hcode, if_neg hne]
  exact ⟨b', (readPairBitmap_congr hpost).trans hb', hmem⟩

end Arkiv
