import Mathlib
import Arkiv.Registry.IndexAccounts
import Arkiv.Registry.Namespaces

/-!
# The index follows the records

After every run the pair accounts and the index accounts of a set of keys hold
the index of the live entities, as long as no value under such a key changes
its tier and no call on their trees loses a slot. The postings of the built-in
keys need neither.

## Main definitions

- `OpCall.edits` — the edits that an operation makes
- `Reindexed` — an accepted operation by the edits that it makes
- `IndexHolds` — the accounts hold the index of the live entities
- `indexHolds_run` — they do after every run that meets the conditions
- `builtInPairs_run` — the postings of the built-in keys do after every run
-/

namespace Arkiv

open ByteString

section Runs

variable [Host]

/-- What an operation on a stored record takes out of the index and puts into it. -/
def OpCall.editsOf (c : OpCall) (e : EntityRlp) : Option (List Annotation × List Annotation) :=
  if c.op.operationType = opUpdate then
    (convertAttributes c.op.attributes).toOption.bind fun attributes =>
      (validatePayloadReference c.op.payload c.ctx.chainId).toOption.map fun auth =>
        (droppedAnnotations e (updatedRecord e c attributes auth),
          droppedAnnotations (updatedRecord e c attributes auth) e)
  else if c.op.operationType = opExtend then
    some ([⟨annotExpiration, u64Bytes e.expiresAt, true⟩],
      [⟨annotExpiration, u64Bytes (extendedRecord e c).expiresAt, true⟩])
  else if c.op.operationType = opTransfer then
    some ([⟨annotOwner, addressBytes e.owner, false⟩],
      [⟨annotOwner, addressBytes c.op.newOwner, false⟩])
  else some (deletedAnnotations e c.op.entityKey, [])

/-- The ID, the removals and the insertions of an operation. -/
def OpCall.edits (w : World) (c : OpCall) :
    Option (UInt64 × List Annotation × List Annotation) :=
  if c.op.operationType = opCreate then
    (convertAttributes c.op.attributes).toOption.bind fun attributes =>
      (validatePayloadReference c.op.payload c.ctx.chainId).toOption.map fun auth =>
        (entityCount w, [], (createdRecord w c attributes auth).annotations)
  else
    (EntityRlp.decodeFromCode (w.code (entityAddress c.op.entityKey))).toOption.bind fun e =>
      (c.editsOf e).map fun edits => (readEntityId w (entityAddress c.op.entityKey), edits)

/-- The calls that an operation makes on the trees of the index. -/
def OpCall.treeCalls (w : World) (c : OpCall) : List TreeCall :=
  match c.edits w with
  | some (i, rem, ins) => editTreeCalls w i rem ins
  | none => []

section Edits

variable {w : World} {c : OpCall} {e : EntityRlp} {attributes : List Attribute}
  {auth : PayloadReferenceAuth}

theorem OpCall.edits_create (htype : c.op.operationType = opCreate)
    (hconv : convertAttributes c.op.attributes = .ok attributes)
    (hauth : validatePayloadReference c.op.payload c.ctx.chainId = .ok auth) :
    c.edits w = some (entityCount w, [], (createdRecord w c attributes auth).annotations) := by
  rw [OpCall.edits, if_pos htype, hconv, hauth]
  rfl

theorem OpCall.edits_of_load (htype : c.op.operationType ≠ opCreate)
    (hload : LiveAt w (entityAddress c.op.entityKey) e) {rem ins : List Annotation}
    (hedits : c.editsOf e = some (rem, ins)) :
    c.edits w = some (readEntityId w (entityAddress c.op.entityKey), rem, ins) := by
  rw [OpCall.edits, if_neg htype, show EntityRlp.decodeFromCode _ = .ok e from hload]
  show (c.editsOf e).map _ = _
  rw [hedits]
  rfl

theorem OpCall.editsOf_update (htype : c.op.operationType = opUpdate)
    (hconv : convertAttributes c.op.attributes = .ok attributes)
    (hauth : validatePayloadReference c.op.payload c.ctx.chainId = .ok auth) :
    c.editsOf e = some (droppedAnnotations e (updatedRecord e c attributes auth),
      droppedAnnotations (updatedRecord e c attributes auth) e) := by
  rw [OpCall.editsOf, if_pos htype, hconv, hauth]
  rfl

omit [Host] in
theorem opTypes_distinct : opExtend ≠ opUpdate ∧ opTransfer ≠ opUpdate ∧ opTransfer ≠ opExtend ∧
    ∀ k, k = opDelete ∨ k = opExpire → k ≠ opUpdate ∧ k ≠ opExtend ∧ k ≠ opTransfer := by
  refine ⟨by decide, by decide, by decide, ?_⟩
  rintro k (rfl | rfl) <;> decide

theorem OpCall.editsOf_extend (htype : c.op.operationType = opExtend) :
    c.editsOf e = some ([⟨annotExpiration, u64Bytes e.expiresAt, true⟩],
      [⟨annotExpiration, u64Bytes (extendedRecord e c).expiresAt, true⟩]) := by
  rw [OpCall.editsOf, htype, if_neg opTypes_distinct.1, if_pos rfl]

theorem OpCall.editsOf_transfer (htype : c.op.operationType = opTransfer) :
    c.editsOf e = some ([⟨annotOwner, addressBytes e.owner, false⟩],
      [⟨annotOwner, addressBytes c.op.newOwner, false⟩]) := by
  rw [OpCall.editsOf, htype, if_neg opTypes_distinct.2.1, if_neg opTypes_distinct.2.2.1,
    if_pos rfl]

theorem OpCall.editsOf_remove (htype : c.op.operationType = opDelete ∨
    c.op.operationType = opExpire) :
    c.editsOf e = some (deletedAnnotations e c.op.entityKey, []) := by
  obtain ⟨hupdate, hextend, htransfer⟩ := opTypes_distinct.2.2.2 _ htype
  rw [OpCall.editsOf, if_neg hupdate, if_neg hextend, if_neg htransfer]

end Edits

variable {S : Scope} {chainId : UInt64} {w w' : World} {h : History} {x : OpTransition}

/-- An accepted operation by what it does to the index: the edits, and how they follow the change
    of the record. -/
structure Reindexed (S : Scope) (chainId : UInt64) (x : OpTransition) (i : UInt64)
    (rem ins : List Annotation) : Prop where
  edits : x.label.edits x.pre = some (i, rem, ins)
  effect : ∃ code slots event, Effect x.pre x.post x.target code i rem ins slots event
  target : S.EntityAt chainId x.target
  rem_covers : S.CoversAll rem
  ins_covers : S.CoversAll ins
  ins_length : ∀ a ∈ ins, a.value.length ≤ 255
  moves : ∀ k, (k = annotKey → RemovesStoredKey S chainId x) →
    TwoTier.OneTier annotationSchema (idEntries S chainId x.pre) k →
    TwoTier.Moves annotationSchema (idEntries S chainId x.pre) (idEntries S chainId x.post) i rem
      ins k

omit [Host] in
theorem EntityRlp.WellFormed.value_length {e : EntityRlp} (hwf : e.WellFormed) {a : Annotation}
    (ha : a ∈ e.annotations) : a.value.length ≤ 255 :=
  (EntityRlp.value_length_annotations hwf.fits.contentType
    (fun x hx => (hwf.fits.attributes x hx).value) a ha).trans (by decide)

/-- The record that a create makes. -/
theorem Made.reindexed_mint (hmade : Made S chainId h x) (hN : Numbered S chainId x.pre h)
    {e : EntityRlp} (hx : x.IsCreate)
    (hc : MintChange S chainId x.pre x.post x.label.ctx e)
    (hedits : x.label.edits x.pre = some (entityCount x.pre, [], e.annotations))
    {code : Bytes} {slots : List (SlotName × B256)} {event : EntityOperation}
    (heffect : Effect x.pre x.post (entityAddress (mintedKey x.pre x.label.ctx)) code
      (entityCount x.pre) [] e.annotations slots event) :
    Reindexed S chainId x (entityCount x.pre) [] e.annotations := by
  have hid := hc.idChange hmade.registered hN
  rw [show entityAddress (mintedKey x.pre x.label.ctx) = x.target from (if_pos hx).symm] at heffect
  refine ⟨hedits, ⟨code, slots, event, heffect⟩, ?_, by simp [Scope.CoversAll], hc.covers,
    fun a ha => hc.wellFormed.value_length ha, fun k _ _ => ?_⟩
  · rw [hc.target hx]
    exact hc.entityAt
  · refine ⟨fun j hj => hid.entries_other hj, by simp, fun a ha _ => hid.mem_post.mpr ⟨e, rfl, ha⟩,
      fun a ha => ?_, fun a ha _ _ => ?_, by simp⟩
    · obtain ⟨f, hf, -⟩ := hid.mem_pre.mp ha
      cases hf
    · obtain ⟨f, hf, ha⟩ := hid.mem_post.mp ha
      rwa [Option.some.inj hf]

/-- A record takes the place of another. -/
theorem Made.reindexed_rewrite (hmade : Made S chainId h x) (hN : Numbered S chainId x.pre h)
    {e e' : EntityRlp} {rem ins : List Annotation}
    (hc : RewriteChange S chainId x.pre x.post x.target e e')
    (hedits : x.label.edits x.pre = some (readEntityId x.pre x.target, rem, ins))
    (hdiff : RecordDiff e e' rem ins)
    (hgone : ∀ a ∈ rem, a ∉ e'.annotations) {code : Bytes} {slots : List (SlotName × B256)}
    {event : EntityOperation}
    (heffect : Effect x.pre x.post x.target code (readEntityId x.pre x.target) rem ins slots
      event) : Reindexed S chainId x (readEntityId x.pre x.target) rem ins := by
  have hid := hc.idChange hmade.registered hN
  have hrec := hmade.registered.recorded _ e hc.live
  refine ⟨hedits, ⟨code, slots, event, heffect⟩, hc.live.1,
    fun a ha => hrec.covers a (hdiff.rem_old a ha), fun a ha => hc.covers a (hdiff.ins_new a ha),
    fun a ha => hc.wellFormed.value_length (hdiff.ins_new a ha), fun k _ htier => ?_⟩
  -- The clauses of a move: other IDs, what goes, what comes, what stays, and the tiers.
  refine ⟨fun j hj => hid.entries_other hj, fun a ha _ => hid.mem_pre.mpr ⟨e, rfl, hdiff.rem_old a ha⟩,
    fun a ha _ => hid.mem_post.mpr ⟨e', rfl, hdiff.ins_new a ha⟩, fun a ha _ hrem => ?_,
    fun a ha _ hnew => ?_, fun a ha hkey b hb hat => ?_⟩
  · obtain ⟨f, hf, ha⟩ := hid.mem_pre.mp ha
    rw [← Option.some.inj hf] at ha
    exact hid.mem_post.mpr ⟨e', rfl, hdiff.kept a ha hrem⟩
  · obtain ⟨f, hf, ha⟩ := hid.mem_post.mp ha
    rw [← Option.some.inj hf] at ha
    exact hdiff.born a ha fun hold => hnew (hid.mem_pre.mpr ⟨e, rfl, hold⟩)
  · -- An annotation that the old record has too is in the tier of the removed one.
    obtain ⟨f, hf, hb'⟩ := hid.mem_post.mp hb
    rw [← Option.some.inj hf] at hb'
    by_cases hold : b ∈ e.annotations
    · have hpre : a ∈ idEntries S chainId x.pre (readEntityId x.pre x.target) :=
        hid.mem_pre.mpr ⟨e, rfl, hdiff.rem_old a ha⟩
      have hlisted := htier _ _ a hpre b (hid.mem_pre.mpr ⟨e, rfl, hold⟩) hkey hat.1 hat.2.symm
      have hsame : a = b := by
        obtain ⟨ak, av, at₁⟩ := a
        obtain ⟨bk, bv, bt⟩ := b
        obtain ⟨rfl, rfl⟩ := hat
        obtain rfl : ak = bk := hkey
        rw [show at₁ = bt from Bool.eq_iff_iff.mpr hlisted]
        rfl
      exact absurd (hsame ▸ hb') (hgone a ha)
    · exact ⟨b, hdiff.born b hb' hold, hat⟩

omit [Host] in
theorem mem_deletedAnnotations_of_mem {e : EntityRlp} {key : B256} {a : Annotation}
    (ha : a ∈ e.annotations) :
    a ∈ deletedAnnotations e key ∨ a = ⟨annotKey, b256Bytes e.key, false⟩ := by
  by_cases hkey : a = ⟨annotKey, b256Bytes e.key, false⟩
  · exact .inr hkey
  · refine .inl ((List.mem_append.mp ha).elim (fun hb => List.mem_append_left _ ?_)
      (List.mem_append_right _))
    simp only [builtInAnnotations, List.mem_cons, hkey, false_or] at hb ⊢
    exact Or.imp_right (Or.imp_right (Or.imp_right (Or.imp_right Or.inr))) hb

/-- A record goes. -/
theorem Made.reindexed_remove (hmade : Made S chainId h x) (hN : Numbered S chainId x.pre h)
    {e : EntityRlp} (hc : RemoveChange S chainId x.pre x.post x.target e)
    (hremove : x.label.op.operationType = opDelete ∨ x.label.op.operationType = opExpire)
    {code : Bytes} {slots : List (SlotName × B256)} {event : EntityOperation}
    (heffect : Effect x.pre x.post (entityAddress x.label.op.entityKey) code
      (readEntityId x.pre (entityAddress x.label.op.entityKey))
      (deletedAnnotations e x.label.op.entityKey) [] slots event) :
    Reindexed S chainId x (readEntityId x.pre x.target)
      (deletedAnnotations e x.label.op.entityKey) [] := by
  have hid := hc.idChange hmade.registered hN
  have hrec := hmade.registered.recorded _ e hc.live
  have hnc : ¬x.IsCreate := OpTransition.not_isCreate_of_remove hremove
  have htarget := OpTransition.target_of_not hnc
  have hload : LiveAt x.pre (entityAddress x.label.op.entityKey) e := htarget ▸ hc.live.2
  rw [← htarget] at heffect
  have hkeyed : ∀ a ∈ deletedAnnotations e x.label.op.entityKey, a ∈ e.annotations ∨
      a = ⟨annotKey, b256Bytes x.label.op.entityKey, false⟩ := fun a ha => mem_deletedAnnotations ha
  have hcovers : S.CoversAll (deletedAnnotations e x.label.op.entityKey) := by
    have hall : S.HasAccounts (deletedAnnotations e x.label.op.entityKey) := by
      refine hmade.sound.accounts.hasAccounts hnc hload fun a ha => (hkeyed a ha).imp_right ?_
      rintro rfl
      exact .remove hremove
    refine hall.coversAll fun a ha => ?_
    rcases hkeyed a ha with hold | rfl
    · exact hrec.wellFormed.zero_notMem hold
    · exact (hrec.covers _ (key_mem_annotations e)).key
  refine ⟨?_, ⟨code, slots, event, heffect⟩, hc.live.1, hcovers, by simp [Scope.CoversAll],
    by simp, fun k hnames _ => ?_⟩
  · rw [OpCall.edits_of_load hnc hload (OpCall.editsOf_remove hremove), htarget]
  -- The removal takes `$key` from the operation, all other annotations from the record.
  have hstored : k = annotKey → x.label.op.entityKey = e.key := fun hk =>
    hnames hk _ e ⟨hremove, rfl⟩ hc.live
  refine ⟨fun j hj => hid.entries_other hj, fun a ha hkey => hid.mem_pre.mpr ⟨e, rfl, ?_⟩, by simp,
    fun a ha hkey hrem => ?_, fun a ha _ _ => ?_, fun a _ _ b hb _ => ?_⟩
  · rcases hkeyed a ha with hold | rfl
    · exact hold
    · rw [hstored hkey.symm]
      exact key_mem_annotations e
  · obtain ⟨f, hf, ha⟩ := hid.mem_pre.mp ha
    rw [← Option.some.inj hf] at ha
    rcases mem_deletedAnnotations_of_mem ha with hold | rfl
    · exact absurd hold hrem
    · refine absurd ?_ hrem
      rw [hstored hkey.symm]
      exact key_mem_annotations e
  · obtain ⟨f, hf, -⟩ := hid.mem_post.mp ha
    cases hf
  · obtain ⟨f, hf, -⟩ := hid.mem_post.mp hb
    cases hf

/-- An update, extension or transfer of the record that it loads. -/
theorem Made.reindexed_of_load (hmade : Made S chainId h x) (hN : Numbered S chainId x.pre h)
    (honly : OnlyEntities S chainId x.pre) {k : UInt8} (htype : x.label.op.operationType = k)
    (hcreate : k ≠ opCreate) (hdelete : k ≠ opDelete) (hexpire : k ≠ opExpire) {e e' : EntityRlp}
    (hload : LiveAt x.pre (entityAddress x.label.op.entityKey) e) (hwf : e'.WellFormed)
    {rem ins : List Annotation} (hedits : x.label.editsOf e = some (rem, ins))
    (hdiff : RecordDiff e e' rem ins) (hgone : ∀ a ∈ rem, a ∉ e'.annotations)
    {slots : List (SlotName × B256)} {event : EntityOperation}
    (heffect : Effect x.pre x.post (entityAddress x.label.op.entityKey) e'.encodeAsCode
      (readEntityId x.pre (entityAddress x.label.op.entityKey)) rem ins slots event) :
    Reindexed S chainId x (readEntityId x.pre x.target) rem ins := by
  have hnc : ¬x.IsCreate := OpTransition.not_isCreate_of htype hcreate
  have hc := hmade.rewriteChange honly htype hcreate hdelete hexpire hload
    (heffect.liveAt_target hwf)
  have hmoved := OpCall.edits_of_load hnc hload hedits
  rw [← OpTransition.target_of_not hnc] at heffect hmoved
  exact hmade.reindexed_rewrite hN hc hmoved hdiff hgone heffect

/-- **Every accepted operation is an edit of the index** where only entities look like entities. -/
theorem Made.reindexed (hmade : Made S chainId h x) (hN : Numbered S chainId x.pre h)
    (honly : OnlyEntities S chainId x.pre) : ∃ i rem ins, Reindexed S chainId x i rem ins := by
  have hwf : ∀ {e : EntityRlp}, LiveAt x.pre (entityAddress x.label.op.entityKey) e →
      e.WellFormed := fun hload =>
    (hmade.registered.recorded _ _ ⟨honly _ _ hload, hload⟩).wellFormed
  cases hmade.applied with
  | create attributes auth htype hbtl href hnonce heffect =>
    have hx : x.IsCreate := htype
    have hc := hmade.mintChange hx (heffect.liveAt_target (wellFormed_createdRecord href))
    exact ⟨_, _, _, hmade.reindexed_mint hN hx hc
      (OpCall.edits_create htype href.convert href.valid) heffect⟩
  | update e attributes auth htype href howned heffect =>
    refine ⟨_, _, _, hmade.reindexed_of_load hN honly htype (by decide) (by decide) (by decide)
      howned.load (wellFormed_updatedRecord e href)
      (OpCall.editsOf_update htype href.convert href.valid) (recordDiff_update e attributes auth)
      (fun a ha hnew => ?_) heffect⟩
    obtain ⟨hold, hno⟩ := List.mem_filter.mp ha
    exact of_decide_eq_true hno
      (updatable_of_key_notMem hnew (updatable_key_notMem (hwf howned.load) hold))
  | extend e htype hbtl howned hlater heffect =>
    have hwf' : (extendedRecord e x.label).WellFormed := (hwf howned.load).mono rfl rfl rfl
    refine ⟨_, _, _, hmade.reindexed_of_load hN honly htype (by decide) (by decide) (by decide)
      howned.load hwf' (OpCall.editsOf_extend htype) (recordDiff_extend e)
      (fun a ha hnew => ?_) heffect⟩
    rw [List.mem_singleton.mp ha] at hnew
    obtain ⟨-, hvalue, -⟩ := Annotation.mk.inj (eq_expiration_of_key hwf' hnew rfl)
    rw [← u64Bytes_inj.mp hvalue] at hlater
    exact UInt64.lt_irrefl _ hlater
  | transfer e htype howned hzero hself heffect =>
    have hwf' : (transferredRecord e x.label).WellFormed := (hwf howned.load).mono rfl rfl rfl
    refine ⟨_, _, _, hmade.reindexed_of_load hN honly htype (by decide) (by decide) (by decide)
      howned.load hwf' (OpCall.editsOf_transfer htype) (recordDiff_transfer e)
      (fun a ha hnew => ?_) heffect⟩
    rw [List.mem_singleton.mp ha] at hnew
    obtain ⟨-, hvalue, -⟩ := Annotation.mk.inj (eq_owner_of_key hwf' hnew rfl)
    exact hself (addressBytes_inj.mp hvalue).symm
  | delete e htype howned heffect =>
    have hc := hmade.removeChange honly (.inl htype) howned.load
    exact ⟨_, _, _, hmade.reindexed_remove hN hc (.inl htype) heffect⟩
  | expire e htype hload hexpired heffect =>
    have hc := hmade.removeChange honly (.inr htype) hload
    exact ⟨_, _, _, hmade.reindexed_remove hN hc (.inr htype) heffect⟩

/-- The index of the live entities. -/
def liveIndex (S : Scope) (chainId : UInt64) (w : World) : TwoTier.Index Bytes Bytes UInt64 :=
  TwoTier.Index.of annotationSchema (idEntries S chainId w)

section Step

variable {Q : Set Bytes} {u : World} {y z : TwoTier.Index Bytes Bytes UInt64} {i : UInt64}
  {rem ins : List Annotation}

/-- Only the accounts and the postings under the keys matter. -/
theorem PairsHold.congr (h : PairsHold S Q w y)
    (hcode : ∀ k v, S.Covers k v → u.code (pairAddress k v) = w.code (pairAddress k v))
    (hpost : ∀ k ∈ Q, ∀ v, z.post k v = y.post k v) : PairsHold S Q u z := by
  intro k hk v hkv
  obtain ⟨b, hb, hmem⟩ := h k hk v hkv
  refine ⟨b, (readPairBitmap_congr (hcode k v hkv)).trans hb, fun i => ?_⟩
  rw [hmem, hpost k hk]

theorem TreesHold.congr (h : TreesHold S Q w y)
    (hcode : ∀ k, indexPreimage k ∈ S.accounts → u.code (indexAddress k) = w.code (indexAddress k))
    (hvals : ∀ k ∈ Q, z.vals k = y.vals k) : TreesHold S Q u z := by
  intro k hk hindex
  obtain ⟨s, hs, hmem⟩ := h k hk hindex
  refine ⟨s, by rwa [hcode k hindex], fun v => ?_⟩
  rw [hmem, hvals k hk]

/-- **Step for the postings**: an accepted operation moves its ID as its record moves. -/
theorem Reindexed.pairs (hr : Reindexed S chainId x i rem ins)
    (hnames : annotKey ∈ Q → RemovesStoredKey S chainId x)
    (htier : ∀ k ∈ Q, TwoTier.OneTier annotationSchema (idEntries S chainId x.pre) k)
    (h : PairsHold S Q x.pre (liveIndex S chainId x.pre)) :
    PairsHold S Q x.post (liveIndex S chainId x.post) := by
  obtain ⟨code, slots, event, heffect⟩ := hr.effect
  obtain ⟨u, v, hu, hedits, hcode⟩ := heffect.edits
  have hmid : PairsHold S Q u (liveIndex S chainId x.pre) :=
    h.congr (fun _ _ _ => hu _) fun _ _ _ => rfl
  refine (hmid.edits hr.rem_covers hr.ins_covers hedits).congr (fun k v hkv => ?_)
    fun k hk v => ?_
  · rw [hcode, if_neg (hr.target.ne_pairAddress hkv.pair).symm]
  · refine ((hr.moves k ?_ (htier k hk)).post_edit v).symm
    rintro rfl
    exact hnames hk

/-- **Step for the lists**: where values keep their tier and the calls keep the slots, the trees
    change as the index of the records does. -/
theorem Reindexed.trees (hr : Reindexed S chainId x i rem ins)
    (hnames : annotKey ∈ Q → RemovesStoredKey S chainId x)
    (htier : ∀ k ∈ Q, TwoTier.OneTier annotationSchema (idEntries S chainId x.pre) k)
    (htier' : ∀ k ∈ Q, TwoTier.OneTier annotationSchema (idEntries S chainId x.post) k)
    (hslots : ∀ c ∈ x.label.treeCalls x.pre, c.key ∈ Q → c.op.KeepsSlots c.tree)
    (hP : PairsHold S Q x.pre (liveIndex S chainId x.pre))
    (h : TreesHold S Q x.pre (liveIndex S chainId x.pre)) :
    TreesHold S Q x.post (liveIndex S chainId x.post) := by
  obtain ⟨code, slots, event, heffect⟩ := hr.effect
  obtain ⟨u, v, hu, hedits, hcode⟩ := heffect.edits
  have hcalls : editTreeCalls u i rem ins = x.label.treeCalls x.pre := by
    rw [OpCall.treeCalls, hr.edits]
    exact SameCode.editTreeCalls hu hedits
  have hmidP : PairsHold S Q u (liveIndex S chainId x.pre) :=
    hP.congr (fun _ _ _ => hu _) fun _ _ _ => rfl
  have hmid : TreesHold S Q u (liveIndex S chainId x.pre) :=
    h.congr (fun _ _ => hu _) fun _ _ => rfl
  rw [← hcalls] at hslots
  refine (hmid.edits hmidP hr.rem_covers hr.ins_covers hr.ins_length hedits hslots).congr
    (fun k hk => ?_) fun k hk => ?_
  · rw [hcode, if_neg (hr.target.ne_indexAddress hk).symm]
  · refine ((hr.moves k ?_ (htier k hk)).vals_edit (htier k hk) (htier' k hk)).symm
    rintro rfl
    exact hnames hk

end Step

section Run

variable {Q L : Set Bytes} {steps : List Chain.Step}

theorem idEntries_congr (hcode : ∀ a, S.EntityAt chainId a → w'.code a = w.code a)
    (hslot : ∀ s, w'.slot s = w.slot s) : idEntries S chainId w' = idEntries S chainId w := by
  funext i
  ext a
  exact exists_congr fun e => and_congr_left fun _ => LiveId.congr hcode hslot

theorem idEntries_genesis (i : UInt64) : idEntries S chainId World.genesis i = ∅ := by
  apply Set.eq_empty_of_forall_notMem
  rintro a ⟨e, ⟨b, hb, -⟩, -⟩
  exact not_liveAt_of_nil rfl e hb.2

/-- No value under the keys is carried both in tier 2 and not, after any operation. -/
def OneTierIn (S : Scope) (chainId : UInt64) (Q : Set Bytes) (h : History) : Prop :=
  ∀ x ∈ h, ∀ k ∈ Q, TwoTier.OneTier annotationSchema (idEntries S chainId x.post) k

/-- Removals name stored keys where `$key` is asked for. -/
def NamesKeysIn (S : Scope) (chainId : UInt64) (Q : Set Bytes) (h : History) : Prop :=
  annotKey ∈ Q → ∀ x ∈ h, RemovesStoredKey S chainId x

/-- The calls on the trees of the keys keep the slots. -/
def KeepsSlotsIn (Q : Set Bytes) (h : History) : Prop :=
  ∀ x ∈ h, ∀ c ∈ x.label.treeCalls x.pre, c.key ∈ Q → c.op.KeepsSlots c.tree

/-- The accounts hold the index of the live entities: its postings under the keys in `Q`, its
    lists of values under those in `L`. -/
structure IndexHolds (S : Scope) (chainId : UInt64) (Q L : Set Bytes) (w : World) : Prop where
  tiers : ∀ k ∈ Q, TwoTier.OneTier annotationSchema (idEntries S chainId w) k
  pairs : PairsHold S Q w (liveIndex S chainId w)
  trees : TreesHold S L w (liveIndex S chainId w)

theorem PairsHold.mono {y : TwoTier.Index Bytes Bytes UInt64} (h : PairsHold S Q w y)
    (hL : L ⊆ Q) : PairsHold S L w y := fun k hk => h k (hL hk)

theorem indexHolds_genesis (S : Scope) (chainId : UInt64) (Q L : Set Bytes) :
    IndexHolds S chainId Q L World.genesis where
  tiers k _ i j a ha := by
    rw [idEntries_genesis] at ha
    cases ha
  pairs k _ v _ := by
    refine ⟨Bitmap.new, rfl, fun i => iff_of_false (Bitmap.not_mem_new i) ?_⟩
    rintro ⟨a, ha, -⟩
    rw [idEntries_genesis] at ha
    cases ha
  trees k _ _ := by
    refine ⟨∅, storedSet_nil, fun v => iff_of_false (Finset.notMem_empty v) ?_⟩
    rintro ⟨i, a, ha, -⟩
    rw [idEntries_genesis] at ha
    cases ha

theorem IndexHolds.congr (h : IndexHolds S chainId Q L w) (hsame : SameRegistry S chainId w w') :
    IndexHolds S chainId Q L w' := by
  have hentries := idEntries_congr hsame.entity hsame.slot
  have hindex : liveIndex S chainId w' = liveIndex S chainId w := by
    rw [liveIndex, hentries, liveIndex]
  refine ⟨fun k hk => by rw [hentries]; exact h.tiers k hk, ?_, ?_⟩
  · exact h.pairs.congr (fun k v hkv => hsame.derived _ hkv.pair) fun k _ v => by rw [hindex]
  · exact h.trees.congr (fun k hk => hsame.derived _ hk) fun k _ => by rw [hindex]

/-- **Step**: an accepted operation that meets the conditions keeps the index. -/
theorem IndexHolds.step (h : IndexHolds S chainId Q L x.pre) (hL : L ⊆ Q) {past : History}
    (hmade : Made S chainId past x) (hN : Numbered S chainId x.pre past)
    (honly : OnlyEntities S chainId x.pre) (hnames : annotKey ∈ Q → RemovesStoredKey S chainId x)
    (htiers : ∀ k ∈ Q, TwoTier.OneTier annotationSchema (idEntries S chainId x.post) k)
    (hslots : ∀ c ∈ x.label.treeCalls x.pre, c.key ∈ L → c.op.KeepsSlots c.tree) :
    IndexHolds S chainId Q L x.post := by
  obtain ⟨i, rem, ins, hr⟩ := hmade.reindexed hN honly
  refine ⟨htiers, hr.pairs hnames h.tiers h.pairs, ?_⟩
  exact hr.trees (fun hk => hnames (hL hk)) (fun k hk => h.tiers k (hL hk))
    (fun k hk => htiers k (hL hk)) hslots (h.pairs.mono hL) h.trees

/-- **The index follows the records**: after every run with fewer than `2 ^ 64` creates in which
    only entities look like entities, the pair accounts hold the postings of the live entities
    under keys whose values keep their tier, and the index accounts hold their lists under those
    of these keys on whose trees every call keeps the slots. -/
theorem indexHolds_run (hrun : Chain.AllowedRun chainId S.foreign steps)
    (hsound : SoundHistory S (Chain.run steps).history)
    (honly : OnlyEntitiesIn S chainId (Chain.run steps).history)
    (hlt : creates (Chain.run steps).history < 2 ^ 64) (hL : L ⊆ Q)
    (hnames : NamesKeysIn S chainId Q (Chain.run steps).history)
    (htiers : OneTierIn S chainId Q (Chain.run steps).history)
    (hslots : KeepsSlotsIn L (Chain.run steps).history) :
    IndexHolds S chainId Q L (Chain.run steps).world := by
  refine entity_invariant (Q := fun w _ => IndexHolds S chainId Q L w)
    (indexHolds_genesis S chainId Q L) (fun h x hx _ hmade hN honly hpre => ?_)
    (fun w w' h hsame hpre => hpre.congr hsame) hrun hsound honly hlt
  exact hpre.step hL hmade hN honly (fun hk => hnames hk x hx) (htiers x hx) (hslots x hx)

end Run

section BuiltIn

/-- The built-in keys that are indexed in tier 2. -/
def listedKeys : List Bytes := [annotCreatedAtBlock, annotExpiration, annotContentType]

omit [Host] in
/-- The tier of a built-in annotation is that of its key. -/
theorem EntityRlp.WellFormed.tier2_iff {e : EntityRlp} (hwf : e.WellFormed) {a : Annotation}
    (ha : a ∈ e.annotations) (hk : a.key ∈ builtInKeys) :
    a.tier2 = true ↔ a.key ∈ listedKeys := by
  rcases List.mem_append.mp ha with ha | ha
  · have htable : ∀ p ∈ [(annotAll, false), (annotCreator, false), (annotCreatedAtBlock, true),
        (annotOwner, false), (annotKey, false), (annotExpiration, true), (annotContentType, true)],
        p.2 = true ↔ p.1 ∈ listedKeys := by decide
    exact htable _ (List.mem_map_of_mem (f := fun a : Annotation => (a.key, a.tier2)) ha)
  · obtain ⟨y, hy, rfl⟩ := List.mem_map.mp ha
    have hdollar : ∀ k ∈ builtInKeys, k = 0x24 :: k.tail := by decide
    exact absurd (hdollar _ hk) (hwf.keys y hy).ne_builtIn

theorem Registered.oneTier_builtIn (hR : Registered S chainId w h) {k : Bytes}
    (hk : k ∈ builtInKeys) :
    TwoTier.OneTier annotationSchema (idEntries S chainId w) k := by
  rintro i j a ⟨e, ⟨c, hc, -⟩, ha⟩ b ⟨f, ⟨d, hd, -⟩, hb⟩ hak hbk -
  have hak : a.key = k := hak
  have hbk : b.key = k := hbk
  have htier := (hR.recorded c e hc).wellFormed.tier2_iff ha (hak ▸ hk)
  have htier' := (hR.recorded d f hd).wellFormed.tier2_iff hb (hbk ▸ hk)
  rw [hak] at htier
  rw [hbk] at htier'
  exact htier.trans htier'.symm

/-- The built-in keys keep their tiers in every run. -/
theorem oneTierIn_builtIn {steps : List Chain.Step}
    (hrun : Chain.AllowedRun chainId S.foreign steps)
    (hsound : SoundHistory S (Chain.run steps).history) :
    OneTierIn S chainId {k | k ∈ builtInKeys} (Chain.run steps).history := by
  intro x hx k hk
  obtain ⟨past, hmade⟩ := (registered_run hrun hsound).2.of_mem hx
  exact hmade.registered'.oneTier_builtIn hk

theorem mem_post_liveIndex {i : UInt64} {k v : Bytes} :
    i ∈ (liveIndex S chainId w).post k v ↔
      ∃ a e, Live S chainId w a e ∧ readEntityId w a = i ∧ Carries e.annotations k v := by
  constructor
  · rintro ⟨b, ⟨e, ⟨a, ha, hid⟩, hb⟩, hat⟩
    exact ⟨a, e, ha, hid, b, hb, hat⟩
  · rintro ⟨a, e, ha, hid, b, hb, hat⟩
    exact ⟨b, ⟨e, ⟨a, ha, hid⟩, hb⟩, hat⟩

theorem mem_vals_liveIndex {k v : Bytes} :
    v ∈ (liveIndex S chainId w).vals k ↔
      ∃ a e, Live S chainId w a e ∧ ⟨k, v, true⟩ ∈ e.annotations := by
  constructor
  · rintro ⟨i, ⟨k', v', t⟩, ⟨e, ⟨a, ha, -⟩, hb⟩, ⟨hk, hv⟩, hlisted⟩
    obtain rfl : k' = k := hk
    obtain rfl : v' = v := hv
    obtain rfl : t = true := hlisted
    exact ⟨a, e, ha, hb⟩
  · rintro ⟨a, e, ha, hb⟩
    exact ⟨_, _, ⟨e, ⟨a, ha, rfl⟩, hb⟩, ⟨rfl, rfl⟩, rfl⟩

/-- The postings of the built-in keys other than `$key` need no conditions. -/
theorem indexHolds_builtIn {steps : List Chain.Step}
    (hrun : Chain.AllowedRun chainId S.foreign steps)
    (hsound : SoundHistory S (Chain.run steps).history)
    (honly : OnlyEntitiesIn S chainId (Chain.run steps).history)
    (hlt : creates (Chain.run steps).history < 2 ^ 64) :
    IndexHolds S chainId {k | k ∈ builtInKeys ∧ k ≠ annotKey} ∅ (Chain.run steps).world :=
  indexHolds_run hrun hsound honly hlt (Set.empty_subset _) (fun hk => absurd rfl hk.2)
    (fun x hx k hk => oneTierIn_builtIn hrun hsound x hx k hk.1) fun _ _ _ _ hc => hc.elim

/-- **The postings of the built-in keys** are those of the live entities after every run with fewer
    than `2 ^ 64` creates in which only entities look like entities; `$key` alone depends on what
    callers name. -/
theorem builtInPairs_run {steps : List Chain.Step}
    (hrun : Chain.AllowedRun chainId S.foreign steps)
    (hsound : SoundHistory S (Chain.run steps).history)
    (honly : OnlyEntitiesIn S chainId (Chain.run steps).history)
    (hlt : creates (Chain.run steps).history < 2 ^ 64) :
    ∀ k ∈ builtInKeys, k ≠ annotKey → ∀ v, S.Covers k v →
      ∃ b, readPairBitmap (Chain.run steps).world k v = .ok b ∧
        ∀ i, i ∈ b ↔ ∃ a e, Live S chainId (Chain.run steps).world a e ∧
          readEntityId (Chain.run steps).world a = i ∧ Carries e.annotations k v := by
  have hholds := indexHolds_builtIn hrun hsound honly hlt
  intro k hk hne v hkv
  obtain ⟨b, hb, hmem⟩ := hholds.pairs k ⟨hk, hne⟩ v hkv
  exact ⟨b, hb, fun i => (hmem i).trans mem_post_liveIndex⟩

end BuiltIn

/-- **The lists of values** in the index accounts are those of the live entities, in order and
    without repetition, after every run with fewer than `2 ^ 64` creates in which only entities
    look like entities, values under the key keep their tier and every call on its tree keeps the
    slots. -/
theorem lists_run {L : Set Bytes} {steps : List Chain.Step}
    (hrun : Chain.AllowedRun chainId S.foreign steps)
    (hsound : SoundHistory S (Chain.run steps).history)
    (honly : OnlyEntitiesIn S chainId (Chain.run steps).history)
    (hlt : creates (Chain.run steps).history < 2 ^ 64)
    (hnames : NamesKeysIn S chainId L (Chain.run steps).history)
    (htiers : OneTierIn S chainId L (Chain.run steps).history)
    (hslots : KeepsSlotsIn L (Chain.run steps).history) :
    ∀ k ∈ L, indexPreimage k ∈ S.accounts →
      ∃ t l, readIndexTree (Chain.run steps).world k = .ok t ∧ t.Enumerates l ∧
        t.len = l.length ∧
        ∀ v, v ∈ l ↔ ∃ a e, Live S chainId (Chain.run steps).world a e ∧
          ⟨k, v, true⟩ ∈ e.annotations := by
  have hholds := indexHolds_run hrun hsound honly hlt subset_rfl hnames htiers hslots
  intro k hk hindex
  obtain ⟨s, hs, hmem⟩ := hholds.trees k hk hindex
  obtain ⟨t, l, hread, hl, hmem', hlen⟩ := hs.exists_enumerates
  have hset : s = l.toFinset := by
    ext v
    rw [List.mem_toFinset, hmem']
  refine ⟨t, l, readIndexTree_of_ofCode hread, hl, ?_, fun v => ?_⟩
  · rw [hlen, hset, List.toFinset_card_of_nodup hl.nodup]
  · rw [hmem', hmem, mem_vals_liveIndex]

end Runs

theorem builtInPairs_tradeRun : ∃ b,
    readPairBitmap (Chain.run DevChain.tradeRun).world annotOwner
      (addressBytes DevChain.devBuyer) = .ok b ∧
    ∀ i, i ∈ b ↔ ∃ a e, Live DevChain.tradeScope devChainId (Chain.run DevChain.tradeRun).world a e ∧
      readEntityId (Chain.run DevChain.tradeRun).world a = i ∧
      Carries e.annotations annotOwner (addressBytes DevChain.devBuyer) := by
  have hmem : ⟨annotOwner, addressBytes DevChain.devBuyer, false⟩ ∈ DevChain.tradeAnnotations := by
    simp [DevChain.tradeAnnotations]
  exact builtInPairs_run DevChain.facts_tradeRun.allowed DevChain.facts_tradeRun.sound
    DevChain.facts_tradeRun.only DevChain.facts_tradeRun.creates annotOwner (by decide) (by decide)
    (addressBytes DevChain.devBuyer) (DevChain.covers_tradeScope hmem)

theorem oneTierIn_of_facts (Q : Set Bytes) {steps : List Chain.Step} (h : DevChain.RunFacts steps) :
    OneTierIn DevChain.tradeScope devChainId Q (Chain.run steps).history := by
  rintro x hx k - i j a ⟨e, ⟨c, hc, -⟩, ha⟩ b ⟨f, ⟨d, hd, -⟩, hb⟩ hak hbk hvalue
  have ha' := (h.records x hx c e (.inr hc)).1 a ha
  have hb' := (h.records x hx d f (.inr hd)).1 b hb
  exact Bool.eq_iff_iff.mp (DevChain.tiers_tradeAnnotations a ha' b hb' (hak.trans hbk.symm) hvalue)

theorem namesKeysIn_of_facts (Q : Set Bytes) {steps : List Chain.Step}
    (h : DevChain.RunFacts steps) :
    NamesKeysIn DevChain.tradeScope devChainId Q (Chain.run steps).history :=
  fun _ x hx => removesStoredKey_of_facts h x hx

/-- The two creates meet small trees. -/
theorem keepsSlotsIn_openRun (L : Set Bytes) :
    KeepsSlotsIn L (Chain.run DevChain.openRun).history := by
  have hsmall : (DevChain.openState.history.all fun x => (x.label.treeCalls x.pre).all fun c =>
      c.tree.root.isSmall && decide (c.tree.len + 1 < 2 ^ 32)) = true := by
    decide +kernel
  rw [DevChain.run_openRun]
  intro x hx c hc _
  have hcall := List.all_eq_true.mp (List.all_eq_true.mp hsmall x hx) c hc
  rw [Bool.and_eq_true, decide_eq_true_eq] at hcall
  exact SetOp.keepsSlots_of_isSmall hcall.1 hcall.2 c.op

theorem lists_openRun : ∃ t l,
    readIndexTree (Chain.run DevChain.openRun).world annotExpiration = .ok t ∧ t.Enumerates l ∧
    t.len = l.length ∧ ∀ v, v ∈ l ↔ ∃ a e,
      Live DevChain.tradeScope devChainId (Chain.run DevChain.openRun).world a e ∧
      ⟨annotExpiration, v, true⟩ ∈ e.annotations := by
  have hmem : ⟨annotExpiration, u64Bytes 105, true⟩ ∈ DevChain.tradeAnnotations := by
    simp [DevChain.tradeAnnotations]
  exact lists_run DevChain.facts_openRun.allowed DevChain.facts_openRun.sound
    DevChain.facts_openRun.only DevChain.facts_openRun.creates
    (namesKeysIn_of_facts Set.univ DevChain.facts_openRun)
    (oneTierIn_of_facts Set.univ DevChain.facts_openRun) (keepsSlotsIn_openRun Set.univ)
    annotExpiration trivial (DevChain.covers_tradeScope hmem).index

end Arkiv
