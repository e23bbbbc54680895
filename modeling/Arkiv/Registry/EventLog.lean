import Mathlib
import Arkiv.Registry.Edit

/-!
# The event log

A reader who folds the events in order keeps, for each key, the owner and the
expiry that the log gives it. This is the state as long as operations name the
keys that the records store.

## Main definitions

- `replay` — the fold over the log
- `NamesStoredKey` — the key of an operation is the key of the record it acts on
- `RemovesStoredKey` — the same of removals only
- `Replayed` — the fold is the state
- `replayed_run` — it is, after every run of operations that name stored keys
- `DevChain.aliasRun` — a run in which a deletion names another key
-/

namespace Arkiv

open ByteString

/-- Owner and expiry by key, as a reader of the log knows them. -/
abbrev LogView := B256 → Option (Address × UInt32)

/-- Creates insert, updates, extensions and transfers overwrite, deletions and expiries remove. -/
def replayEvent (view : LogView) (event : EntityOperation) : LogView :=
  if event.operationType = opCreate then
    Function.update view event.entityKey (some (event.owner, event.expiresAt))
  else if event.operationType ∈ [opUpdate, opExtend, opTransfer] then
    Function.update view event.entityKey
      ((view event.entityKey).map fun _ => (event.owner, event.expiresAt))
  else if event.operationType ∈ [opDelete, opExpire] then
    Function.update view event.entityKey none
  else view

def replay (logs : List EntityOperation) : LogView := logs.foldl replayEvent fun _ => none

theorem replay_snoc (logs : List EntityOperation) (event : EntityOperation) :
    replay (logs ++ [event]) = replayEvent (replay logs) event := by
  rw [replay, List.foldl_append, List.foldl_cons, List.foldl_nil, replay]

section Runs

variable [Host]

/-- The log and the live entities agree. -/
def Replayed (S : Scope) (chainId : UInt64) (w : World) : Prop :=
  ∀ key owner expiresAt, replay w.logs key = some (owner, expiresAt) ↔
    ∃ a e, Live S chainId w a e ∧ e.key = key ∧ e.owner = owner ∧ e.expiresAt = expiresAt.toUInt64

/-- An operation on a live entity names its key in full. -/
def NamesStoredKey (S : Scope) (chainId : UInt64) (x : OpTransition) : Prop :=
  ¬x.IsCreate → ∀ e, Live S chainId x.pre x.target e → x.label.op.entityKey = e.key

/-- A removal of a live entity names its key in full. -/
def RemovesStoredKey (S : Scope) (chainId : UInt64) (x : OpTransition) : Prop :=
  ∀ a e, x.Removes a → Live S chainId x.pre a e → x.label.op.entityKey = e.key

/-- The live records expire below `2 ^ 32`. -/
def ExpiresBelow (S : Scope) (chainId : UInt64) (w : World) : Prop :=
  ∀ a e, Live S chainId w a e → e.expiresAt.toNat < 2 ^ 32

variable {S : Scope} {chainId : UInt64} {w w' : World} {h : History} {x : OpTransition}

omit [Host] in
theorem clipU32_toUInt64 {n : UInt64} (h : n.toNat < 2 ^ 32) : (clipU32 n).toUInt64 = n := by
  rw [← UInt64.toNat_inj, UInt32.toNat_toUInt64, clipU32, min_eq_left (by omega)]
  exact Nat.mod_eq_of_lt h

omit [Host] in
/-- An expiry below `2 ^ 32` is the one that the event shows. -/
theorem clipU32_eq_iff {n : UInt64} (h : n.toNat < 2 ^ 32) {m : UInt32} :
    clipU32 n = m ↔ n = m.toUInt64 := by
  constructor
  · rintro rfl
    exact (clipU32_toUInt64 h).symm
  · rintro rfl
    rw [← UInt32.toNat_inj, clipU32, UInt32.toNat_toUInt64, min_eq_left (by have := m.toNat_lt; omega)]
    exact UInt32.toNat_ofNat_of_lt' m.toNat_lt

/-- A change of the view at one key follows a change of the entities at that key. -/
theorem Replayed.update (hQ : Replayed S chainId w) {k : B256} {v : Option (Address × UInt32)}
    (hlogs : replay w'.logs = Function.update (replay w.logs) k v)
    (hother : ∀ a f, f.key ≠ k → (Live S chainId w' a f ↔ Live S chainId w a f))
    (hself : ∀ owner expiresAt, v = some (owner, expiresAt) ↔
      ∃ a f, Live S chainId w' a f ∧ f.key = k ∧ f.owner = owner ∧
        f.expiresAt = expiresAt.toUInt64) : Replayed S chainId w' := by
  intro key owner expiresAt
  rw [hlogs]
  by_cases hkey : key = k
  · subst hkey
    rw [Function.update_self]
    exact hself owner expiresAt
  · rw [Function.update_of_ne hkey, hQ key owner expiresAt]
    constructor
    · rintro ⟨a, f, hf, rfl, hrest⟩
      exact ⟨a, f, (hother a f hkey).mpr hf, rfl, hrest⟩
    · rintro ⟨a, f, hf, rfl, hrest⟩
      exact ⟨a, f, (hother a f hkey).mp hf, rfl, hrest⟩

/-- The record that is live under the key of the event, after an operation that leaves one. -/
theorem some_eq_iff_live {e : EntityRlp} {a : Address} (he : Live S chainId w a e)
    (honly : ∀ b f, Live S chainId w b f → f.key = e.key → f = e)
    (hbelow : e.expiresAt.toNat < 2 ^ 32) (owner : Address) (expiresAt : UInt32) :
    some (e.owner, clipU32 e.expiresAt) = some (owner, expiresAt) ↔
      ∃ a f, Live S chainId w a f ∧ f.key = e.key ∧ f.owner = owner ∧
        f.expiresAt = expiresAt.toUInt64 := by
  rw [Option.some.injEq, Prod.mk.injEq, clipU32_eq_iff hbelow]
  constructor
  · rintro ⟨howner, hexp⟩
    exact ⟨a, e, he, rfl, howner, hexp⟩
  · rintro ⟨b, f, hf, hkey, howner, hexp⟩
    obtain rfl := honly b f hf hkey
    exact ⟨howner, hexp⟩

/-- Two live entities with one key are one entity. -/
theorem Registered.eq_of_key (hR : Registered S chainId w h) {a b : Address} {e f : EntityRlp}
    (he : Live S chainId w a e) (hf : Live S chainId w b f) (hkey : f.key = e.key) :
    b = a ∧ f = e := by
  have hba : b = a := by
    rw [(hR.recorded a e he).address, (hR.recorded b f hf).address, hkey]
  subst hba
  exact ⟨rfl, hf.2.unique he.2⟩

theorem Replayed.mint (hQ : Replayed S chainId x.pre) (hmade : Made S chainId h x)
    (hbelow : ExpiresBelow S chainId x.post) {e : EntityRlp}
    (hc : MintChange S chainId x.pre x.post x.label.ctx e)
    (hlogs : x.post.logs = x.pre.logs ++ [⟨e.key, opCreate, e.owner, clipU32 e.expiresAt, 0⟩]) :
    Replayed S chainId x.post := by
  refine hQ.update (k := e.key) (v := some (e.owner, clipU32 e.expiresAt)) ?_ (fun a f hne => ?_) ?_
  · rw [hlogs, replay_snoc, replayEvent, if_pos rfl]
  · constructor
    · intro hf
      have hlive := hc.live_iff.mp hf
      split at hlive
      · exact absurd (congrArg EntityRlp.key hlive) hne
      · exact hlive
    · exact hc.live_of_live hmade.registered
  · exact some_eq_iff_live hc.live_new
      (fun b f hf hkey => (hmade.registered'.eq_of_key hc.live_new hf hkey).2)
      (hbelow _ e hc.live_new)

theorem Replayed.rewrite (hQ : Replayed S chainId x.pre) (hmade : Made S chainId h x)
    (hpre : ExpiresBelow S chainId x.pre) (hbelow : ExpiresBelow S chainId x.post) {e e' : EntityRlp}
    (hc : RewriteChange S chainId x.pre x.post x.target e e')
    (hkey : x.label.op.entityKey = e.key)
    (htype : x.label.op.operationType ∈ [opUpdate, opExtend, opTransfer])
    (hlogs : x.post.logs = x.pre.logs ++ [⟨x.label.op.entityKey, x.label.op.operationType, e'.owner,
      clipU32 e'.expiresAt, 0⟩]) : Replayed S chainId x.post := by
  have hlive : Live S chainId x.post x.target e' := by
    rw [hc.live_iff, if_pos rfl]
  -- The log so far shows the record, so the event of the operation finds its key.
  have hview : replay x.pre.logs e.key = some (e.owner, clipU32 e.expiresAt) :=
    (hQ _ _ _).mpr ⟨x.target, e, hc.live, rfl, rfl, (clipU32_toUInt64 (hpre _ e hc.live)).symm⟩
  refine hQ.update (k := e'.key) (v := some (e'.owner, clipU32 e'.expiresAt)) ?_ (fun a f hne => ?_) ?_
  · have hnc : x.label.op.operationType ≠ opCreate := by
      intro hcreate
      rw [hcreate] at htype
      exact absurd htype (by decide)
    rw [hlogs, replay_snoc, replayEvent, if_neg hnc, if_pos htype, hkey, hview, hc.key]
    rfl
  · rw [hc.live_iff]
    split
    · next heq =>
      subst heq
      constructor
      · rintro rfl
        exact absurd rfl hne
      · intro hf
        rw [hf.2.unique hc.live.2, hc.key] at hne
        exact absurd rfl hne
    · rfl
  · exact some_eq_iff_live hlive
      (fun b f hf hkey => (hmade.registered'.eq_of_key hlive hf hkey).2) (hbelow _ e' hlive)

theorem Replayed.remove (hQ : Replayed S chainId x.pre) (hmade : Made S chainId h x)
    {e : EntityRlp} (hx : x.Removes x.target)
    (hc : RemoveChange S chainId x.pre x.post x.target e) (hkey : x.label.op.entityKey = e.key)
    (hlogs : x.post.logs = x.pre.logs ++ [⟨x.label.op.entityKey, x.label.op.operationType, e.owner,
      clipU32 e.expiresAt, 0⟩]) : Replayed S chainId x.post := by
  refine hQ.update (k := e.key) (v := none) ?_ (fun a f hne => ?_) ?_
  · have hevent : replayEvent (replay x.pre.logs) ⟨x.label.op.entityKey, x.label.op.operationType,
        e.owner, clipU32 e.expiresAt, 0⟩ = Function.update (replay x.pre.logs) e.key none := by
      rw [replayEvent, hkey]
      rcases hx.1 with ht | ht <;> rw [ht] <;> rfl
    rw [hlogs, replay_snoc, hevent]
  · rw [hc.live_iff]
    constructor
    · exact fun hf => hf.2
    · intro hf
      refine ⟨?_, hf⟩
      rintro rfl
      exact hne (congrArg EntityRlp.key (hf.2.unique hc.live.2))
  · intro owner expiresAt
    refine iff_of_false (by simp) ?_
    rintro ⟨a, f, hf, hfk, -⟩
    obtain ⟨hne, hf⟩ := hc.live_iff.mp hf
    exact hne (hmade.registered.eq_of_key hc.live hf hfk).1

/-- **Step**: an operation that names the stored key keeps the log and the state in agreement. -/
theorem Replayed.step (hQ : Replayed S chainId x.pre) (hmade : Made S chainId h x)
    (honly : OnlyEntities S chainId x.pre) (hpre : ExpiresBelow S chainId x.pre)
    (hbelow : ExpiresBelow S chainId x.post) (hnames : NamesStoredKey S chainId x) :
    Replayed S chainId x.post := by
  cases hmade.edited honly with
  | mint e m hx hm hc heffect => exact hQ.mint hmade hbelow hc heffect.logs
  | rewrite e e' rem ins slots hx htype hc hdiff hrepost hslots heffect =>
    exact hQ.rewrite hmade hpre hbelow hc (hnames hx e hc.live) htype heffect.logs
  | remove e hx hc heffect =>
    exact hQ.remove hmade hx hc (hnames hx.not_isCreate e hc.live) heffect.logs

theorem Replayed.congr (hQ : Replayed S chainId w) (hlogs : w'.logs = w.logs)
    (hcode : ∀ a, S.EntityAt chainId a → w'.code a = w.code a) : Replayed S chainId w' := by
  have hlive : ∀ a e, Live S chainId w' a e ↔ Live S chainId w a e := fun a e =>
    and_congr_right fun ha => LiveAt.congr (hcode a ha) e
  intro key owner expiresAt
  rw [hlogs]
  simp only [hlive]
  exact hQ key owner expiresAt

theorem ExpiresBelow.congr (hQ : ExpiresBelow S chainId w)
    (hcode : ∀ a, S.EntityAt chainId a → w'.code a = w.code a) : ExpiresBelow S chainId w' :=
  fun a e he => hQ a e ⟨he.1, (LiveAt.congr (hcode a he.1) e).mp he.2⟩

/-- **The event log replays to the state** after every run with expiries below `2 ^ 32` in which
    only entities look like entities and every operation on a live entity names its key in full. -/
theorem replayed_run {steps : List Chain.Step} (hrun : Chain.AllowedRun chainId S.foreign steps)
    (hsound : SoundHistory S (Chain.run steps).history)
    (honly : OnlyEntitiesIn S chainId (Chain.run steps).history)
    (hbelow : ∀ x ∈ (Chain.run steps).history, ExpiresBelow S chainId x.post)
    (hnames : ∀ x ∈ (Chain.run steps).history, NamesStoredKey S chainId x) :
    Replayed S chainId (Chain.run steps).world := by
  -- Events clip blocks to 32 bits, so the bound on expiries goes through the run with the replay.
  have hall := sound_invariant (Q := fun w h => OnlyEntitiesIn S chainId h →
      (∀ x ∈ h, ExpiresBelow S chainId x.post) → (∀ x ∈ h, NamesStoredKey S chainId x) →
      ExpiresBelow S chainId w ∧ Replayed S chainId w) ?_ (fun h x hmade _ hQ honly hbelow hnames => ?_)
    (fun w h addr acc _ _ hQ ha honly hbelow hnames => ?_) (fun w h f hQ => hQ)
    (fun w h _ hQ honly hbelow hnames => ?_) hrun hsound
  · exact (hall.2 honly hbelow hnames).2
  · have hno : ∀ a e, ¬Live S chainId World.genesis a e := fun a e he => not_liveAt_of_nil rfl e he.2
    refine fun _ _ _ => ⟨fun a e he => absurd he (hno a e), fun key owner expiresAt => ?_⟩
    refine iff_of_false (by simp [replay, World.genesis]) ?_
    rintro ⟨a, e, he, -⟩
    exact hno a e he
  · have hx : x ∈ h ++ [x] := by simp
    obtain ⟨hpre, hR⟩ := hQ (fun y hy => honly y (List.mem_append_left _ hy))
      (fun y hy => hbelow y (List.mem_append_left _ hy))
      (fun y hy => hnames y (List.mem_append_left _ hy))
    exact ⟨hbelow x hx, hR.step hmade (honly x hx) hpre (hbelow x hx) (hnames x hx)⟩
  · obtain ⟨hpre, hR⟩ := hQ honly hbelow hnames
    exact ⟨hpre.congr (World.code_foreign ha), hR.congr rfl (World.code_foreign ha)⟩
  · obtain ⟨hpre, hR⟩ := hQ honly hbelow hnames
    exact ⟨hpre.congr fun a _ => w.code_prune a, hR.congr rfl fun a _ => w.code_prune a⟩

end Runs

namespace DevChain

/-- The key of the new entity with another last byte. -/
def aliasKey : B256 := createKey + 1

def aliasOp : Operation := plainOp opDelete aliasKey 0 0

/-- A create and the deletion of its entity under the other key. Only the first 20 bytes of a key
    find the account. -/
def aliasRun : List Chain.Step := [.call (callOf devCaller 5 [createOp, aliasOp])]

def aliasAnnotations : List Annotation :=
  ⟨annotKey, b256Bytes aliasKey, false⟩ :: firstEntity.annotations

def aliasAccounts : List Bytes := (preimages [(devCaller, 0)] aliasAnnotations).dedup

def aliasSlots : List SlotName :=
  [.entityCount, .idToAddr 0, .addrToId (entityAddress createKey), .nonces devCaller,
    .payloadReferenceNonce devCaller 1]

def aliasScope : Scope :=
  Scope.ofLists aliasAccounts aliasSlots [] (by decide +kernel) (by decide +kernel)
    (fun _ _ => List.not_mem_nil) system_not_mem_nil List.mem_cons_self

def aliasFacts (s : ChainState) : Bool :=
  runCheck aliasAccounts aliasSlots (otherAddresses aliasAnnotations []) s.history &&
  decide (creates s.history = 1) &&
  (s.history.all fun x =>
    match EntityRlp.decodeFromCode (x.post.code (entityAddress createKey)) with
    | .ok e => decide (e.expiresAt.toNat < 2 ^ 32)
    | .error _ => true) &&
  decide (s.world.code (entityAddress createKey) = []) &&
  decide (s.world.logs = [⟨createKey, opCreate, devCaller, 105, 0⟩,
    ⟨aliasKey, opDelete, devCaller, 105, 0⟩]) &&
  match readPairBitmap s.world annotKey (b256Bytes createKey) with
  | .ok b => decide (0 ∈ b)
  | .error _ => false

theorem aliasFacts_aliasRun : aliasFacts (Chain.run aliasRun) = true := by
  have hrun : Chain.run aliasRun = batch Chain.genesis devCaller 5 [createOp, aliasOp] := by
    rw [aliasRun, Chain.run, List.foldl_cons, step_callOf _ (by simp), List.foldl_nil]
  rw [hrun]
  decide +kernel

theorem allowedRun_aliasRun : Chain.AllowedRun devChainId aliasScope.foreign aliasRun :=
  ⟨rfl, trivial⟩

theorem mem_accounts_aliasScope {p : Bytes} :
    p ∈ aliasScope.accounts ↔ p ∈ preimages [(devCaller, 0)] aliasAnnotations :=
  List.mem_dedup

/-- The parts of `aliasFacts`. -/
structure AliasFacts (s : ChainState) : Prop where
  sound : SoundHistory aliasScope s.history
  creates : creates s.history = 1
  expires : ∀ x ∈ s.history, ∀ e, LiveAt x.post (entityAddress createKey) e →
    e.expiresAt.toNat < 2 ^ 32
  gone : s.world.code (entityAddress createKey) = []
  logs : s.world.logs = [⟨createKey, opCreate, devCaller, 105, 0⟩,
    ⟨aliasKey, opDelete, devCaller, 105, 0⟩]
  posted : ∃ b, readPairBitmap s.world annotKey (b256Bytes createKey) = .ok b ∧ 0 ∈ b
  only : (∀ x ∈ s.history, x.pre.SupportedOn aliasScope) →
    OnlyEntitiesIn aliasScope devChainId s.history

theorem aliasFacts_iff {s : ChainState} (h : aliasFacts s = true) : AliasFacts s := by
  simp only [aliasFacts, Bool.and_eq_true, decide_eq_true_eq] at h
  obtain ⟨⟨⟨⟨⟨hcheck, hcreates⟩, hexpires⟩, hgone⟩, hlogs⟩, hposted⟩ := h
  refine ⟨sound_of_runCheck (fun p hp => hp) (fun n hn => hn) hcheck, hcreates, fun x hx e he => ?_,
    hgone, hlogs, ?_, fun hsupport => onlyEntities_of_runCheck ?_ hsupport hcheck⟩
  · have hall := List.all_eq_true.mp hexpires x hx
    rw [he] at hall
    exact of_decide_eq_true hall
  · split at hposted
    · next b hb => exact ⟨b, hb, of_decide_eq_true hposted⟩
    · simp at hposted
  · refine contains_of_preimages (fun p hp => mem_accounts_aliasScope.mp hp) (fun a ha => ha)
      fun k hk => mem_accounts_aliasScope.mpr (List.mem_append_left _ (List.mem_map_of_mem hk))

theorem facts_aliasRun : AliasFacts (Chain.run aliasRun) := aliasFacts_iff aliasFacts_aliasRun

theorem onlyEntitiesIn_aliasRun :
    OnlyEntitiesIn aliasScope devChainId (Chain.run aliasRun).history :=
  facts_aliasRun.only (supported_run allowedRun_aliasRun facts_aliasRun.sound).2

/-- The run has one entity address. -/
theorem eq_of_entityAt_aliasScope {a : Address} (ha : aliasScope.EntityAt devChainId a) :
    a = entityAddress createKey := by
  obtain ⟨k, hk, rfl⟩ := entityAt_of_preimages (fun p hp => mem_accounts_aliasScope.mp hp) ha
  rw [List.mem_singleton.mp hk]
  rfl

/-- The posting that the deletion leaves behind is in the scope. -/
theorem covers_aliasScope : aliasScope.Covers annotKey (b256Bytes createKey) := by
  have hmem : ⟨annotKey, b256Bytes createKey, false⟩ ∈ aliasAnnotations :=
    List.mem_cons_of_mem _ (key_mem_annotations firstEntity)
  refine ⟨by decide, mem_accounts_aliasScope.mpr ?_, mem_accounts_aliasScope.mpr ?_⟩
  · exact List.mem_append_right _ (List.mem_flatMap.mpr ⟨_, hmem, by simp⟩)
  · exact List.mem_append_right _ (List.mem_flatMap.mpr ⟨_, hmem, by simp⟩)

end DevChain

/-- The development run in which a deletion names another key than the record. -/
theorem not_replayed_aliasRun : ¬∀ (S : Scope) (chainId : UInt64) (steps : List Chain.Step),
    Chain.AllowedRun chainId S.foreign steps → SoundHistory S (Chain.run steps).history →
    OnlyEntitiesIn S chainId (Chain.run steps).history →
    (∀ x ∈ (Chain.run steps).history, ExpiresBelow S chainId x.post) →
    Replayed S chainId (Chain.run steps).world := by
  intro hclaim
  have hfacts := DevChain.facts_aliasRun
  have hreplayed := hclaim DevChain.aliasScope devChainId DevChain.aliasRun
    DevChain.allowedRun_aliasRun hfacts.sound DevChain.onlyEntitiesIn_aliasRun
    fun x hx a e he => hfacts.expires x hx e (DevChain.eq_of_entityAt_aliasScope he.1 ▸ he.2)
  -- The log still has the created key, but its account is empty.
  have hview : replay (Chain.run DevChain.aliasRun).world.logs DevChain.createKey =
      some (DevChain.devCaller, 105) := by
    rw [hfacts.logs]
    decide +kernel
  obtain ⟨a, e, he, -⟩ := (hreplayed _ _ _).mp hview
  rw [DevChain.eq_of_entityAt_aliasScope he.1] at he
  exact not_liveAt_of_nil hfacts.gone e he.2

theorem namesStoredKey_of_facts {steps : List Chain.Step} (h : DevChain.RunFacts steps)
    (x : OpTransition) (hx : x ∈ (Chain.run steps).history) :
    NamesStoredKey DevChain.tradeScope devChainId x := fun hnc e he => h.names x hx hnc e he.2

theorem removesStoredKey_of_facts {steps : List Chain.Step} (h : DevChain.RunFacts steps)
    (x : OpTransition) (hx : x ∈ (Chain.run steps).history) :
    RemovesStoredKey DevChain.tradeScope devChainId x := by
  rintro a e hrem he
  refine h.names x hx hrem.not_isCreate e ?_
  rw [hrem.2]
  exact he.2

theorem replayed_tradeRun :
    Replayed DevChain.tradeScope devChainId (Chain.run DevChain.tradeRun).world :=
  replayed_run DevChain.facts_tradeRun.allowed DevChain.facts_tradeRun.sound
    DevChain.facts_tradeRun.only
    (fun x hx a e he => (DevChain.facts_tradeRun.records x hx a e (.inr he)).2)
    (namesStoredKey_of_facts DevChain.facts_tradeRun)

end Arkiv
