import Mathlib
import Arkiv.Cli.Batches

/-!
# Runs of the simulator

Promotions, batches and receipts in any order. A batch that gives up keeps what it
has reserved, and a batch does not look at what it works on itself; but for these two,
every entity is in one place and every reservation belongs to a batch in flight.

## Main definitions

- `Traffic`, `Event`, `step` — the state with the batches in flight, and its steps
- `Law` — what is to hold of every state
- `Inv` — the invariant, of a state and the operations in flight
- `law_of_reaches` — runs of careful batches keep the law
-/

namespace Arkiv.Simulate

namespace State

/-- The keys of the simulator, by place. -/
def tracked (s : State) : List B256 := s.alive.keys ++ s.expired ++ s.expiredPending

end State

/-- The state behind the mutex, and the batches of the tasks that wait for a receipt. -/
structure Traffic where
  state : State
  inFlight : List BatchPlan

def Traffic.start : Traffic := ⟨State.start, []⟩

/-- The operations of all batches in flight. -/
def Traffic.ops (w : Traffic) : List PlannedOp := w.inFlight.flatMap (·.ops)

inductive Event where
  | promote (currentBlock : UInt32)
  | build (a : BatchArgs) (d : Draws)
  | success (i : ℕ) (logs : List (Option EntityOperation))
  | failure (i : ℕ)
  /-- The hash map iterates in some other order. -/
  | reorder (alive : AList fun _ : B256 => AliveEntity)

/-- One step; none where the batch is not in flight, or the batch under way panics. -/
def step (w : Traffic) : Event → Option Traffic
  | .promote currentBlock => some ⟨w.state.promoteExpired currentBlock, w.inFlight⟩
  | .build a d => (buildBatch a w.state d).map fun r => ⟨r.1.2, w.inFlight ++ r.1.1.toList⟩
  | .success i logs =>
    w.inFlight[i]?.map fun plan =>
      ⟨applySuccess w.state plan.ops logs plan.signerIdx, w.inFlight.eraseIdx i⟩
  | .failure i =>
    w.inFlight[i]?.map fun plan => ⟨applyFailure w.state plan.ops, w.inFlight.eraseIdx i⟩
  | .reorder alive =>
    if alive.entries.Perm w.state.alive.entries then some ⟨{ w.state with alive }, w.inFlight⟩
    else none

/-- The node gives each entity it creates a key that it never gave before. -/
def FreshKeys (w : Traffic) : Event → Prop
  | .success _ logs => (createKeys logs).Nodup ∧ ∀ key ∈ createKeys logs, key ∉ w.state.tracked
  | _ => True

/-- The states that runs with guarded steps reach. -/
def Reaches (G : Traffic → Event → Prop) : Traffic → Prop :=
  Relation.ReflTransGen (fun w w' => ∃ e, step w e = some w' ∧ G w e) Traffic.start

/-- What is to hold: every key once and in one place, the reservations of batches in flight, and
    no entity that two operations in flight work on. -/
structure Law (w : Traffic) : Prop where
  once : w.state.tracked.Nodup
  reserved : w.state.expiredPending.Perm (expireTargets w.ops)
  targets : (aliveTargets w.ops).Nodup

/-- A receipt confirms a deletion or an expiry of the key. -/
def ConfirmsRemoval (w : Traffic) (e : Event) (key : B256) : Prop :=
  ∃ i logs plan, e = .success i logs ∧ w.inFlight[i]? = some plan ∧
    ∃ op ∈ plan.ops, (op.kind = .delete ∧ op.target = some key) ∨ op.expireTarget = some key

def Careful (w : Traffic) : Event → Prop
  | .build a d => CarefulBatch a w.state d
  | _ => True

section Places

variable (s : State) (t : Option B256) (f : AliveEntity → AliveEntity) (k : OpKind) (key : B256)

@[simp] theorem tracked_recordSent : (s.recordSent k).tracked = s.tracked := rfl
@[simp] theorem tracked_recordConfirmed : (s.recordConfirmed k).tracked = s.tracked := rfl
@[simp] theorem tracked_recordFailed : (s.recordFailed k).tracked = s.tracked := rfl

@[simp] theorem modify_expired : (s.modify t f).expired = s.expired := by
  unfold State.modify
  split
  · rfl
  · split <;> rfl

@[simp] theorem modify_expiredPending : (s.modify t f).expiredPending = s.expiredPending := by
  unfold State.modify
  split
  · rfl
  · split <;> rfl

theorem modify_lookup : (s.modify t f).alive.lookup key =
    if t = some key then (s.alive.lookup key).map f else s.alive.lookup key := by
  unfold State.modify
  split
  · rw [if_neg (by simp)]
  · next key' =>
    by_cases hkey : key' = key
    · subst hkey
      rw [if_pos rfl]
      split
      · next hnone => rw [hnone, Option.map_none]
      · next e he => rw [he, Option.map_some, AList.lookup_insert]
    · rw [if_neg (by simpa using hkey)]
      split
      · rfl
      · exact AList.lookup_insert_ne (Ne.symm hkey)

theorem modify_keys : (s.modify t f).alive.keys.Perm s.alive.keys := by
  refine (List.perm_ext_iff_of_nodup (AList.keys_nodup _) (AList.keys_nodup _)).mpr fun key => ?_
  rw [← AList.mem_keys, ← AList.mem_keys, ← AList.lookup_isSome, ← AList.lookup_isSome,
    modify_lookup]
  split <;> simp

/-- A change of an entity leaves it where it is. -/
theorem tracked_modify : (s.modify t f).tracked.Perm s.tracked := by
  unfold State.tracked
  rw [modify_expired, modify_expiredPending]
  exact ((modify_keys s t f).append_right _).append_right _

theorem mem_tracked : key ∈ s.tracked ↔
    key ∈ s.alive ∨ key ∈ s.expired ∨ key ∈ s.expiredPending := by
  simp only [State.tracked, List.mem_append, AList.mem_keys, or_assoc]

end Places

/-- The invariant: the law, and the mark on the entities in flight. -/
structure Inv (s : State) (ops : List PlannedOp) : Prop where
  placed : ∀ op ∈ ops, op.Placed
  once : s.tracked.Nodup
  reserved : s.expiredPending.Perm (expireTargets ops)
  targets : (aliveTargets ops).Nodup
  pending : ∀ key ∈ aliveTargets ops, ∃ e, s.alive.lookup key = some e ∧ e.pending = true

section Invariant

variable {s s' : State} {ops rest : List PlannedOp} {op : PlannedOp} {key : B256}

theorem inv_start : Inv State.start [] :=
  ⟨by simp, List.nodup_nil, .refl _, List.nodup_nil, by simp [aliveTargets]⟩

theorem Inv.perm {ops' : List PlannedOp} (h : Inv s ops) (hperm : ops.Perm ops') : Inv s ops' := by
  refine ⟨fun op hop => h.placed op (hperm.mem_iff.mpr hop), h.once,
    h.reserved.trans (hperm.filterMap _), ((hperm.filterMap _).nodup_iff).mp h.targets, ?_⟩
  intro key hkey
  exact h.pending key ((hperm.filterMap _).mem_iff.mpr hkey)

theorem Inv.count {k : OpKind} {f : Counters → Counters} (h : Inv s ops) : Inv (s.count k f) ops :=
  ⟨h.placed, h.once, h.reserved, h.targets, h.pending⟩

/-- The first operation is done; the entities of the others are as before. -/
theorem Inv.done (h : Inv s (op :: rest)) (honce : s'.tracked.Nodup)
    (hreserved : s'.expiredPending.Perm (expireTargets rest))
    (hlookup : ∀ key ∈ aliveTargets rest, key ∈ s.alive → op.target ≠ some key →
      s'.alive.lookup key = s.alive.lookup key) : Inv s' rest := by
  have htail : (aliveTargets rest).Nodup ∧ ∀ key ∈ aliveTargets rest, op.target ≠ some key := by
    have hall := h.targets
    cases htarget : op.target with
    | none =>
      rw [aliveTargets, List.filterMap_cons_none htarget] at hall
      exact ⟨hall, by simp⟩
    | some key =>
      rw [aliveTargets, List.filterMap_cons_some htarget] at hall
      obtain ⟨hkey, hrest⟩ := List.nodup_cons.mp hall
      refine ⟨hrest, fun key' hkey' hsame => hkey ?_⟩
      rw [Option.some.inj hsame]
      exact hkey'
  refine ⟨fun op' hop' => h.placed op' (List.mem_cons_of_mem _ hop'), honce, hreserved, htail.1, ?_⟩
  intro key hkey
  have hall : key ∈ aliveTargets (op :: rest) := by
    obtain ⟨op', hop', htarget⟩ := List.mem_filterMap.mp hkey
    exact List.mem_filterMap.mpr ⟨op', List.mem_cons_of_mem _ hop', htarget⟩
  obtain ⟨e, he, hpending⟩ := h.pending key hall
  have halive : key ∈ s.alive := AList.lookup_isSome.mp (by rw [he]; rfl)
  exact ⟨e, by rw [hlookup key hkey halive (htail.2 key hkey), he], hpending⟩

theorem Inv.reserved_tail (h : Inv s (op :: rest)) (hnone : op.expireTarget = none) :
    s.expiredPending.Perm (expireTargets rest) := by
  have hall := h.reserved
  rwa [expireTargets, List.filterMap_cons_none hnone] at hall

/-- A change of an entity, when its operation is done. -/
theorem Inv.modify (h : Inv s (op :: rest)) (hnone : op.expireTarget = none)
    (f : AliveEntity → AliveEntity) : Inv (s.modify op.target f) rest := by
  refine h.done ((tracked_modify s op.target f).nodup_iff.mpr h.once) ?_ ?_
  · rw [modify_expiredPending]
    exact h.reserved_tail hnone
  · intro key _ _ hne
    rw [modify_lookup, if_neg hne]

theorem tracked_expire (halive : key ∈ s.alive) : (s.expire key).tracked.Perm s.tracked := by
  have hkeys : s.alive.keys.Perm (key :: s.alive.keys.erase key) :=
    List.perm_cons_erase (AList.mem_keys.mp halive)
  rw [State.tracked, State.tracked, State.expire]
  dsimp only
  rw [AList.keys_erase]
  refine .append_right _ ?_
  rw [← List.append_assoc]
  exact (List.perm_append_singleton _ _).trans (hkeys.append_right s.expired).symm

/-- Entities that no batch works on go to the queue. -/
theorem inv_foldl_expire {keys : List B256} (h : Inv s ops) (hkeys : keys.Nodup)
    (hfree : ∀ key ∈ keys, ∃ e, s.alive.lookup key = some e ∧ e.pending = false) :
    Inv (keys.foldl State.expire s) ops ∧ (keys.foldl State.expire s).tracked.Perm s.tracked := by
  induction keys generalizing s with
  | nil => exact ⟨h, .refl _⟩
  | cons key keys ih =>
    obtain ⟨hkey, hkeys⟩ := List.nodup_cons.mp hkeys
    obtain ⟨e, he, hidle⟩ := hfree key List.mem_cons_self
    have halive : key ∈ s.alive := AList.lookup_isSome.mp (by rw [he]; rfl)
    have hperm := tracked_expire halive
    have hinv : Inv (s.expire key) ops := by
      refine ⟨h.placed, hperm.nodup_iff.mpr h.once, h.reserved, h.targets, fun k hk => ?_⟩
      obtain ⟨e', he', hpending⟩ := h.pending k hk
      refine ⟨e', ?_, hpending⟩
      rw [State.expire, AList.lookup_erase_ne, he']
      rintro rfl
      rw [he] at he'
      rw [Option.some.inj he', hpending] at hidle
      cases hidle
    have hrest : ∀ k ∈ keys, ∃ e, (s.expire key).alive.lookup k = some e ∧ e.pending = false := by
      intro k hk
      obtain ⟨e', he', hidle'⟩ := hfree k (List.mem_cons_of_mem _ hk)
      refine ⟨e', ?_, hidle'⟩
      rw [State.expire, AList.lookup_erase_ne, he']
      rintro rfl
      exact hkey hk
    obtain ⟨hgo, hgoperm⟩ := ih hinv hkeys hrest
    exact ⟨hgo, hgoperm.trans hperm⟩

/-- **Promotion** keeps the invariant and every key. -/
theorem inv_promoteExpired (currentBlock : UInt32) (h : Inv s ops) :
    Inv (s.promoteExpired currentBlock) ops ∧
      (s.promoteExpired currentBlock).tracked.Perm s.tracked := by
  refine inv_foldl_expire h ?_ fun key hkey => ?_
  · exact (AList.keys_nodup s.alive).sublist ((List.filter_sublist).map _)
  · obtain ⟨⟨k, e⟩, hmem, rfl⟩ := List.mem_map.mp hkey
    obtain ⟨hentry, hidle⟩ := List.mem_filter.mp hmem
    rw [Bool.and_eq_true, Bool.not_eq_true'] at hidle
    exact ⟨e, AList.mem_lookup_iff.mpr hentry, hidle.1⟩

/-- What an operation takes away when it is confirmed. -/
def PlannedOp.Removes (op : PlannedOp) (key : B256) : Prop :=
  (op.kind = .delete ∧ op.target = some key) ∨ op.expireTarget = some key

variable (s key) in
theorem tracked_erase : ({ s with alive := s.alive.erase key } : State).tracked.Sublist s.tracked := by
  rw [State.tracked, State.tracked]
  dsimp only
  rw [AList.keys_erase]
  exact ((List.erase_sublist.append_right _).append_right _)

variable (s key) in
theorem tracked_releasePending : (s.releasePending key).tracked.Sublist s.tracked :=
  List.erase_sublist.append_left _

theorem tracked_insert {e : AliveEntity} (hnew : key ∉ s.tracked) :
    ({ s with alive := s.alive.insert key e } : State).tracked = key :: s.tracked := by
  have hkey : key ∉ s.alive.keys := fun hmem =>
    hnew ((mem_tracked s key).mpr (.inl (AList.mem_keys.mpr hmem)))
  rw [State.tracked, State.tracked]
  dsimp only
  rw [AList.keys_insert, List.erase_of_not_mem hkey, List.cons_append, List.cons_append]

theorem mem_tracked_of_releasePending {k : B256} (hk : k ∈ s.tracked)
    (hgone : k ∉ (s.releasePending key).tracked) : k = key := by
  by_contra hne
  refine hgone ((mem_tracked _ k).mpr ?_)
  obtain halive | hexpired | hpending := (mem_tracked s k).mp hk
  · exact .inl halive
  · exact .inr (.inl hexpired)
  · exact .inr (.inr ((List.mem_erase_of_ne hne).mpr hpending))

theorem mem_tracked_of_erase {k : B256} (hk : k ∈ s.tracked)
    (hgone : k ∉ ({ s with alive := s.alive.erase key } : State).tracked) : k = key := by
  by_contra hne
  refine hgone ((mem_tracked _ k).mpr ?_)
  obtain halive | hexpired := (mem_tracked s k).mp hk
  · exact .inl (AList.mem_erase.mpr ⟨hne, halive⟩)
  · exact .inr hexpired

/-- The invariant for the rest, keys of later creations stay new, and only a removal takes a key
    away. -/
structure Confirmed (s : State) (op : PlannedOp) (rest : List PlannedOp) (s' : State)
    (keys' : List B256) : Prop where
  inv : Inv s' rest
  keys : keys'.Nodup
  new : ∀ key ∈ keys', key ∉ s'.tracked
  removed : ∀ key ∈ s.tracked, key ∉ s'.tracked → op.Removes key

/-- An operation that takes nothing away. -/
theorem Confirmed.of_perm {keys : List B256} (hkeys : keys.Nodup)
    (hnew : ∀ key ∈ keys, key ∉ s.tracked) (hinv : Inv s' rest)
    (hperm : s'.tracked.Perm s.tracked) : Confirmed s op rest s' keys :=
  ⟨hinv, hkeys, fun key hkey hmem => hnew key hkey (hperm.mem_iff.mp hmem),
    fun _ hmem hgone => absurd (hperm.mem_iff.mpr hmem) hgone⟩

/-- An operation that only takes keys away, each of them its own. -/
theorem Confirmed.of_sublist {keys : List B256} (hkeys : keys.Nodup)
    (hnew : ∀ key ∈ keys, key ∉ s.tracked) (hinv : Inv s' rest)
    (hsub : s'.tracked.Sublist s.tracked)
    (hgone : ∀ key ∈ s.tracked, key ∉ s'.tracked → op.Removes key) :
    Confirmed s op rest s' keys :=
  ⟨hinv, hkeys, fun key hkey hmem => hnew key hkey (hsub.subset hmem), hgone⟩

theorem Confirmed.count {keys : List B256} {k : OpKind} {f : Counters → Counters}
    (h : Confirmed s op rest s' keys) : Confirmed s op rest (s'.count k f) keys :=
  ⟨h.inv.count, h.keys, h.new, h.removed⟩

/-- The first created key of the receipt becomes alive; it was not tracked before. -/
theorem Confirmed.created {keys : List B256} (h : Inv s (op :: rest))
    (hnone : op.expireTarget = none) (hkeys : (key :: keys).Nodup)
    (hnew : ∀ k ∈ key :: keys, k ∉ s.tracked) (e : AliveEntity) :
    Confirmed s op rest { s with alive := s.alive.insert key e } keys := by
  obtain ⟨hkey, hkeys⟩ := List.nodup_cons.mp hkeys
  have hkeynew := hnew key List.mem_cons_self
  refine ⟨h.done ?_ (h.reserved_tail hnone) ?_, hkeys, ?_, ?_⟩
  · rw [tracked_insert hkeynew]
    exact List.nodup_cons.mpr ⟨hkeynew, h.once⟩
  · intro k _ halive _
    refine AList.lookup_insert_ne ?_
    rintro rfl
    exact hkeynew ((mem_tracked s k).mpr (.inl halive))
  · intro k hk hmem
    rw [tracked_insert hkeynew] at hmem
    obtain rfl | hmem := List.mem_cons.mp hmem
    · exact hkey hk
    · exact hnew k (List.mem_cons_of_mem _ hk) hmem
  · intro k hk hgone
    rw [tracked_insert hkeynew] at hgone
    exact absurd (List.mem_cons_of_mem _ hk) hgone

theorem expireTarget_none (hkind : op.kind ≠ .expire) : op.expireTarget = none := if_neg hkind

theorem expireTarget_some (hkind : op.kind = .expire) :
    op.expireTarget = some op.op.entityKey := if_pos hkind

/-- **One confirmed operation**. -/
theorem confirmed_confirm (senderIdx : ℕ) {keys : List B256} (h : Inv s (op :: rest))
    (hkeys : keys.Nodup) (hnew : ∀ key ∈ keys, key ∉ s.tracked) :
    Confirmed s op rest (confirm senderIdx s keys op).1 (confirm senderIdx s keys op).2 := by
  have hplaced := h.placed op List.mem_cons_self
  have hmodify : op.kind ≠ .expire → ∀ f, Confirmed s op rest (s.modify op.target f) keys :=
    fun hkind f => .of_perm hkeys hnew (h.modify (expireTarget_none hkind) f) (tracked_modify ..)
  cases hkind : op.kind with
  | create =>
    have hnone : op.expireTarget = none := expireTarget_none (by rw [hkind]; decide)
    simp only [confirm, hkind]
    cases keys with
    | nil =>
      exact .of_perm hkeys hnew (h.done h.once (h.reserved_tail hnone) fun _ _ _ _ => rfl)
        (.refl _)
    | cons key keys => exact .created h hnone hkeys hnew _
  -- The entity changes in its place.
  | update | extend =>
    simp only [confirm, hkind]
    exact hmodify (by rw [hkind]; decide) _
  | transfer =>
    simp only [confirm, hkind]
    cases op.newOwnerIdx with
    | none =>
      have hnone : op.expireTarget = none := expireTarget_none (by rw [hkind]; decide)
      exact .of_perm hkeys hnew (h.done h.once (h.reserved_tail hnone) fun _ _ _ _ => rfl)
        (.refl _)
    | some newIdx => exact hmodify (by rw [hkind]; decide) _
  | delete =>
    simp only [confirm, hkind]
    cases htarget : op.target with
    | none =>
      -- A delete has a target, so this branch of the source is not reached.
      have hcontra := hplaced.mp htarget
      rw [hkind] at hcontra
      exact absurd hcontra (by decide)
    | some key =>
      have hsub := tracked_erase s key
      refine .of_sublist hkeys hnew (h.done (h.once.sublist hsub)
        (h.reserved_tail (expireTarget_none (by rw [hkind]; decide))) ?_) hsub ?_
      · intro k _ _ hne
        refine AList.lookup_erase_ne ?_
        rintro rfl
        exact hne htarget
      · intro k hk hgone
        rw [mem_tracked_of_erase hk hgone]
        exact .inl ⟨hkind, htarget⟩
  | expire =>
    simp only [confirm, hkind, hplaced.mpr (.inr hkind)]
    -- The key leaves the reserved ones together with the plan that reserved it.
    have hsome := expireTarget_some hkind
    have hsub := tracked_releasePending s op.op.entityKey
    have hreserved := h.reserved
    rw [expireTargets, List.filterMap_cons_some hsome] at hreserved
    refine .of_sublist hkeys hnew (h.done (h.once.sublist hsub) ?_ fun _ _ _ _ => rfl) hsub ?_
    · have herase := hreserved.erase op.op.entityKey
      rwa [List.erase_cons_head] at herase
    · intro k hk hgone
      rw [mem_tracked_of_releasePending hk hgone]
      exact .inr hsome

/-- **A confirmed batch**. -/
theorem inv_applySuccess (senderIdx : ℕ) {planned : List PlannedOp}
    {logs : List (Option EntityOperation)} (h : Inv s (planned ++ rest)) (hkeys : (createKeys logs).Nodup)
    (hnew : ∀ key ∈ createKeys logs, key ∉ s.tracked) :
    Inv (applySuccess s planned logs senderIdx) rest ∧
      ∀ key ∈ s.tracked, key ∉ (applySuccess s planned logs senderIdx).tracked →
        ∃ op ∈ planned, op.Removes key := by
  unfold applySuccess
  generalize createKeys logs = keys at hkeys hnew
  induction planned generalizing s keys with
  | nil => exact ⟨h, fun key hmem hgone => absurd hmem hgone⟩
  | cons op planned ih =>
    have hop := (confirmed_confirm senderIdx h hkeys hnew).count
      (k := op.kind) (f := fun c => { c with confirmed := c.confirmed + 1 })
    obtain ⟨hinv, hremoved⟩ := ih hop.inv _ hop.keys hop.new
    refine ⟨hinv, fun key hmem hgone => ?_⟩
    by_cases hkey : key ∈ (confirmOp senderIdx (s, keys) op).1.tracked
    · obtain ⟨op', hop', hremoves⟩ := hremoved key hkey hgone
      exact ⟨op', List.mem_cons_of_mem _ hop', hremoves⟩
    · exact ⟨op, List.mem_cons_self, hop.removed key hmem hkey⟩

/-- **One failed operation** frees what it works on. -/
theorem inv_failOp (h : Inv s (op :: rest)) :
    Inv (failOp s op) rest ∧ (failOp s op).tracked.Perm s.tracked := by
  have hplaced := h.placed op List.mem_cons_self
  unfold failOp
  dsimp only
  rw [modify_expiredPending]
  by_cases hkind : op.kind = .expire
  · have hsome := expireTarget_some hkind
    have hreserved := h.reserved
    rw [expireTargets, List.filterMap_cons_some hsome] at hreserved
    have hmem : op.op.entityKey ∈ s.expiredPending := hreserved.mem_iff.mpr List.mem_cons_self
    rw [if_pos ⟨hkind, hmem⟩, hplaced.mpr (.inr hkind)]
    have hperm : ({ s.releasePending op.op.entityKey with
        expired := s.expired ++ [op.op.entityKey] } : State).tracked.Perm s.tracked := by
      rw [State.tracked, State.tracked]
      simp only [State.releasePending, List.append_assoc, List.singleton_append]
      exact ((List.perm_cons_erase hmem).symm.append_left _).append_left _
    refine ⟨Inv.count (h.done (hperm.nodup_iff.mpr h.once) ?_ fun _ _ _ _ => rfl), hperm⟩
    have herase := hreserved.erase op.op.entityKey
    rwa [List.erase_cons_head] at herase
  · rw [if_neg fun hand => hkind hand.1]
    exact ⟨(h.modify (expireTarget_none hkind) _).count, tracked_modify ..⟩

/-- **A failed batch** keeps every key. -/
theorem inv_applyFailure {planned : List PlannedOp} (h : Inv s (planned ++ rest)) :
    Inv (applyFailure s planned) rest ∧ (applyFailure s planned).tracked.Perm s.tracked := by
  unfold applyFailure
  induction planned generalizing s with
  | nil => exact ⟨h, .refl _⟩
  | cons op planned ih =>
    obtain ⟨hop, hperm⟩ := inv_failOp h
    obtain ⟨hinv, hrest⟩ := ih hop
    exact ⟨hinv, hrest.trans hperm⟩

end Invariant

section Batches

variable {a : BatchArgs} {s s' t : State} {d d' : Draws} {ops new inFlight : List PlannedOp}

theorem aliveTargets_append : aliveTargets (ops ++ new) = aliveTargets ops ++ aliveTargets new :=
  List.filterMap_append

theorem expireTargets_append : expireTargets (ops ++ new) = expireTargets ops ++ expireTargets new :=
  List.filterMap_append

/-- The marks at the end of a batch. -/
theorem markPending_lookup (key : B256) : (markPending s ops).alive.lookup key =
    if key ∈ aliveTargets ops then (s.alive.lookup key).map fun e => { e with pending := true }
    else s.alive.lookup key := by
  unfold markPending
  induction ops generalizing s with
  | nil => rw [if_neg (by simp [aliveTargets])]; rfl
  | cons op ops ih =>
    have hcons : key ∈ aliveTargets (op :: ops) ↔ op.target = some key ∨ key ∈ aliveTargets ops := by
      simp [aliveTargets]
    rw [List.foldl_cons, ih, modify_lookup]
    simp only [hcons]
    by_cases hop : op.target = some key
    · by_cases hops : key ∈ aliveTargets ops
      · rw [if_pos hops, if_pos hop, if_pos (.inl hop), Option.map_map]
        rfl
      · rw [if_neg hops, if_pos hop, if_pos (.inl hop)]
    · simp only [hop, false_or, if_false]

variable (s ops) in
theorem markPending_places : (markPending s ops).expiredPending = s.expiredPending ∧
    (markPending s ops).tracked.Perm s.tracked := by
  unfold markPending
  induction ops generalizing s with
  | nil => exact ⟨rfl, .refl _⟩
  | cons op ops ih =>
    obtain ⟨hpending, hperm⟩ := ih (s.modify op.target fun e => { e with pending := true })
    rw [modify_expiredPending] at hpending
    exact ⟨hpending, hperm.trans (tracked_modify ..)⟩

variable (s ops) in
theorem exists_recordAllSent : ∃ counts, recordAllSent s ops = { s with counts } := by
  unfold recordAllSent
  induction ops generalizing s with
  | nil => exact ⟨s.counts, rfl⟩
  | cons op ops ih => exact ih _

theorem tracked_recordAllSent : (recordAllSent s ops).tracked = s.tracked := by
  obtain ⟨counts, hcounts⟩ := exists_recordAllSent s ops
  rw [hcounts]
  rfl

theorem inv_recordAllSent : Inv (recordAllSent s ops) inFlight ↔ Inv s inFlight := by
  obtain ⟨counts, hcounts⟩ := exists_recordAllSent s ops
  rw [hcounts]
  exact ⟨fun h => ⟨h.placed, h.once, h.reserved, h.targets, h.pending⟩,
    fun h => ⟨h.placed, h.once, h.reserved, h.targets, h.pending⟩⟩

theorem Loop.tracked (h : Loop a s s' new) : s'.tracked.Perm s.tracked := by
  rw [State.tracked, State.tracked, h.alive, h.pending, h.expired]
  simp only [List.append_assoc]
  refine .append_left _ (.append_left _ ?_)
  exact List.perm_append_comm.trans ((List.reverse_perm _).symm.append_right _)

/-- A batch that reserves nothing and is not sent changes nothing in the invariant. -/
theorem Loop.inv (h : Loop a s s' new) (hinv : Inv s inFlight) (hnil : expireTargets new = []) :
    Inv s' inFlight := by
  refine ⟨hinv.placed, h.tracked.nodup_iff.mpr hinv.once, ?_, hinv.targets, ?_⟩
  · rw [h.pending, hnil, List.append_nil]
    exact hinv.reserved
  · rw [h.alive]
    exact hinv.pending

/-- A batch that is sent, when it works on each entity once. -/
theorem Loop.inv_markPending (h : Loop a s s' new) (hinv : Inv s inFlight)
    (htargets : (aliveTargets new).Nodup) : Inv (markPending s' new) (inFlight ++ new) := by
  obtain ⟨hpending, hperm⟩ := markPending_places s' new
  refine ⟨?_, (hperm.trans h.tracked).nodup_iff.mpr hinv.once, ?_, ?_, ?_⟩
  · intro op hop
    exact (List.mem_append.mp hop).elim (hinv.placed op) (h.placed op)
  · rw [hpending, h.pending, expireTargets_append]
    exact hinv.reserved.append_right _
  · rw [aliveTargets_append]
    refine List.nodup_append'.mpr ⟨hinv.targets, htargets, fun key hold hnew => ?_⟩
    -- what is in flight is marked, and what is picked is not
    obtain ⟨e, he, hmarked⟩ := hinv.pending key hold
    obtain ⟨e', he', -, hidle⟩ := mem_candidates.mp (h.picked key hnew)
    rw [he] at he'
    rw [← Option.some.inj he', hmarked] at hidle
    cases hidle
  · intro key hkey
    rw [markPending_lookup, h.alive]
    rw [aliveTargets_append, List.mem_append] at hkey
    by_cases hnew : key ∈ aliveTargets new
    · obtain ⟨e, he, -⟩ := mem_candidates.mp (h.picked key hnew)
      rw [if_pos hnew, he]
      exact ⟨_, rfl, rfl⟩
    · rw [if_neg hnew]
      exact hinv.pending key (hkey.resolve_right hnew)

/-- A batch that does not give up is careful when it works on each entity once. -/
theorem carefulBatch_iff {ops : List PlannedOp} {s₁ : State}
    (h : buildLoop a (targetSize a d) 0 [] s (fun i => d (i + 1)) = some ((some ops, s₁), d')) :
    CarefulBatch a s d ↔ (aliveTargets ops).Nodup := by
  have hnot : ¬GivesUp a s 0 (targetSize a d) := fun hgive => by cases (givesUp_iff h).mpr hgive
  have hstart : (aliveTargets []).Nodup := List.nodup_nil
  rw [CarefulBatch, freshPicks_iff hstart h]
  exact ⟨fun hcareful => hcareful.2 hnot, fun hnodup => ⟨fun hgive => absurd hgive hnot, fun _ => hnodup⟩⟩

/-- **A batch** keeps every key, and keeps the invariant exactly when it is careful. -/
theorem inv_buildBatch_iff {r : Option BatchPlan} (hinv : Inv s inFlight)
    (h : buildBatch a s d = some ((r, s'), d')) :
    s'.tracked.Perm s.tracked ∧
      (CarefulBatch a s d ↔ Inv s' (inFlight ++ r.toList.flatMap (·.ops))) := by
  obtain ⟨all, s₁, hloop, hcases⟩ := buildBatch_cases h
  obtain ⟨new, hnew, hall⟩ := loop_of_buildLoop hloop
  have hgives := givesUp_iff hloop
  obtain ⟨rfl, rfl, hempty⟩ | ⟨ops, rfl, rfl, rfl⟩ := hcases
  · refine ⟨hnew.tracked, ?_⟩
    rw [Option.toList_none, List.flatMap_nil, List.append_nil]
    cases all with
    | none =>
      -- what the loop has reserved stays behind
      have hgive := hgives.mp rfl
      have hcareful : CarefulBatch a s d ↔ s.expired = [] :=
        ⟨fun h => h.1 hgive, fun h => ⟨fun _ => h, fun hnot => absurd hgive hnot⟩⟩
      rw [hcareful]
      have hexpired := hnew.expired
      rw [expired_of_none hloop, List.nil_append] at hexpired
      rw [hexpired, List.reverse_eq_nil_iff]
      refine ⟨hnew.inv hinv, fun hinv' => ?_⟩
      have hlength := (hinv'.reserved.trans hinv.reserved.symm).length_eq
      rw [hnew.pending, List.length_append] at hlength
      exact List.eq_nil_of_length_eq_zero (by omega)
    | some ops =>
      obtain rfl := hempty ops rfl
      obtain rfl : new = [] := (hall [] rfl).symm
      exact iff_of_true ((carefulBatch_iff hloop).mpr List.nodup_nil) (hnew.inv hinv rfl)
  · obtain rfl : ops = new := hall ops rfl
    have hlast : Inv (recordAllSent (markPending s₁ ops) ops) (inFlight ++ ops) ↔
        (aliveTargets ops).Nodup := by
      rw [inv_recordAllSent]
      refine ⟨fun hinv' => ?_, hnew.inv_markPending hinv⟩
      have htargets := hinv'.targets
      rw [aliveTargets_append] at htargets
      exact (List.nodup_append.mp htargets).2.1
    refine ⟨?_, ?_⟩
    · rw [tracked_recordAllSent]
      exact (markPending_places s₁ ops).2.trans hnew.tracked
    · rw [carefulBatch_iff hloop, Option.toList_some, List.flatMap_singleton, hlast]

end Batches

section Runs

variable {w w' : Traffic} {e : Event}

/-- A batch in flight, in front of the others. -/
theorem ops_perm {i : ℕ} {plan : BatchPlan} (h : w.inFlight[i]? = some plan) :
    w.ops.Perm (plan.ops ++ (w.inFlight.eraseIdx i).flatMap (·.ops)) := by
  obtain ⟨hi, hplan⟩ := List.getElem?_eq_some_iff.mp h
  have hperm := (List.getElem_cons_eraseIdx_perm hi).flatMap_right fun plan : BatchPlan => plan.ops
  rw [hplan, List.flatMap_cons] at hperm
  exact hperm.symm

/-- **Steps**: what is careful keeps the invariant, and a key goes with a confirmed removal only. -/
theorem inv_step (hinv : Inv w.state w.ops) (hstep : step w e = some w') (hfresh : FreshKeys w e) :
    (Careful w e → Inv w'.state w'.ops) ∧
      ∀ key ∈ w.state.tracked, key ∉ w'.state.tracked → ConfirmsRemoval w e key := by
  have hkept : ∀ {P : B256 → Prop}, w'.state.tracked.Perm w.state.tracked →
      ∀ key ∈ w.state.tracked, key ∉ w'.state.tracked → P key :=
    fun hperm key hmem hgone => absurd (hperm.mem_iff.mpr hmem) hgone
  cases e with
  | promote currentBlock =>
    obtain rfl := Option.some.inj hstep
    obtain ⟨hinv', hperm⟩ := inv_promoteExpired currentBlock hinv
    exact ⟨fun _ => hinv', hkept hperm⟩
  | build a d =>
    obtain ⟨⟨⟨r, s'⟩, d'⟩, hbatch, rfl⟩ := Option.map_eq_some_iff.mp hstep
    obtain ⟨hperm, hiff⟩ := inv_buildBatch_iff hinv hbatch
    refine ⟨fun hcareful => ?_, hkept hperm⟩
    rw [Traffic.ops, List.flatMap_append]
    exact hiff.mp hcareful
  | success i logs =>
    obtain ⟨plan, hplan, rfl⟩ := Option.map_eq_some_iff.mp hstep
    obtain ⟨hinv', hremoved⟩ :=
      inv_applySuccess plan.signerIdx (hinv.perm (ops_perm hplan)) hfresh.1 hfresh.2
    refine ⟨fun _ => hinv', fun key hmem hgone => ?_⟩
    exact ⟨i, logs, plan, rfl, hplan, hremoved key hmem hgone⟩
  | failure i =>
    obtain ⟨plan, hplan, rfl⟩ := Option.map_eq_some_iff.mp hstep
    obtain ⟨hinv', hperm⟩ := inv_applyFailure (hinv.perm (ops_perm hplan))
    exact ⟨fun _ => hinv', hkept hperm⟩
  -- The map of alive entities has no order of its own.
  | reorder alive =>
    rw [step] at hstep
    split_ifs at hstep with hentries
    obtain rfl := Option.some.inj hstep
    have hperm : ({ w.state with alive } : State).tracked.Perm w.state.tracked :=
      ((hentries.map _).append_right _).append_right _
    refine ⟨fun _ => ⟨hinv.placed, hperm.nodup_iff.mpr hinv.once, hinv.reserved, hinv.targets, ?_⟩,
      hkept hperm⟩
    intro key hkey
    rw [show alive.lookup key = w.state.alive.lookup key from AList.perm_lookup hentries]
    exact hinv.pending key hkey

theorem inv_of_reaches (h : Reaches (fun w e => FreshKeys w e ∧ Careful w e) w) :
    Inv w.state w.ops := by
  induction h with
  | refl => exact inv_start
  | tail _ hstep ih =>
    obtain ⟨e, hstep, hfresh, hcareful⟩ := hstep
    exact (inv_step ih hstep hfresh).1 hcareful

theorem Reaches.next {G : Traffic → Event → Prop} (h : Reaches G w) (e : Event)
    (hstep : (step w e).isSome = true) (hguard : G w e) : Reaches G ((step w e).get hstep) :=
  h.tail ⟨e, (Option.some_get hstep).symm, hguard⟩

/-- **The simulator loses nothing** in runs whose batches are careful: the law holds of every state,
    and a key goes with a confirmed deletion or expiry only. -/
theorem law_of_reaches (h : Reaches (fun w e => FreshKeys w e ∧ Careful w e) w) :
    Law w ∧ ∀ e w', step w e = some w' → FreshKeys w e →
      ∀ key ∈ w.state.tracked, key ∉ w'.state.tracked → ConfirmsRemoval w e key := by
  have hinv := inv_of_reaches h
  exact ⟨⟨hinv.once, hinv.reserved, hinv.targets⟩,
    fun e w' hstep hfresh => (inv_step hinv hstep hfresh).2⟩

end Runs

section Sample

/-- One signer that creates and updates, with room for one entity and three operations a batch. -/
def sampleArgs (currentBlock : UInt64) : BatchArgs :=
  ⟨0, [(.create, 1), (.update, 1)], 1, 3, 1, currentBlock⟩

/-- The first draw makes the size of a batch, and every later one is zero. -/
def sampleDraws (size : ℕ) : Draws := fun n => if n = 0 then size - 1 else 0

/-- A creation is on its way. -/
def sampleBuilt : Traffic :=
  (step Traffic.start (.build (sampleArgs 0) (sampleDraws 1))).get (by decide)

/-- The receipt of the creation. -/
def sampleReceipt : Event := .success 0 [some ⟨7, opCreate, 0, 30, 0⟩]

def sampleTraffic : Traffic := (step sampleBuilt sampleReceipt).get (by decide)

/-- The batch is sent, and works on each entity once. -/
def carefulCheck (a : BatchArgs) (s : State) (d : Draws) : Bool :=
  match buildLoop a (targetSize a d) 0 [] s fun i => d (i + 1) with
  | some ((some ops, _), _) => decide (aliveTargets ops).Nodup
  | _ => false

theorem carefulBatch_of_check {a : BatchArgs} {s : State} {d : Draws}
    (h : carefulCheck a s d = true) : CarefulBatch a s d := by
  unfold carefulCheck at h
  split at h
  · next ops s₁ d' hloop => exact (carefulBatch_iff hloop).mpr (of_decide_eq_true h)
  · cases h

theorem reaches_sample : Reaches (fun w e => FreshKeys w e ∧ Careful w e) sampleTraffic := by
  have hstart : Reaches (fun w e => FreshKeys w e ∧ Careful w e) Traffic.start := .refl
  have hbuild : Reaches (fun w e => FreshKeys w e ∧ Careful w e) sampleBuilt :=
    hstart.next (.build (sampleArgs 0) (sampleDraws 1)) (by decide)
      ⟨trivial, carefulBatch_of_check (by decide +kernel)⟩
  have hempty : sampleBuilt.state.tracked = [] := by decide +kernel
  have hfresh : FreshKeys sampleBuilt sampleReceipt := by
    refine ⟨by decide, ?_⟩
    rw [hempty]
    simp
  exact hbuild.next sampleReceipt (by decide) ⟨hfresh, trivial⟩

/-- One signer with these weights, room for three entities and three operations a batch. -/
def trioArgs (kind : OpKind) (currentBlock : UInt64) : BatchArgs :=
  ⟨0, [(kind, 1)], 3, 3, 1, currentBlock⟩

/-- Batches of three: the second and the third creation live longer than the first, and the second
    of two updates picks the other entity. -/
def trioDraws : Draws := fun n =>
  if n = 0 then 2 else if n = 70 then 101 else if n = 138 then 100 else 0

def trioBuilt : Traffic :=
  (step Traffic.start (.build (trioArgs .create 0) trioDraws)).get (by decide +kernel)

/-- The receipt of three creations. -/
def trioReceipt : Event := .success 0 ([7, 8, 9].map fun key => some ⟨key, opCreate, 0, 30, 0⟩)

def trioTraffic : Traffic := (step trioBuilt trioReceipt).get (by decide +kernel)

/-- The first entity expires, and a batch of three expires it and updates the other two. -/
theorem law_of_reaches_trio : ∃ w, w.state.expiredPending = [7] ∧ aliveTargets w.ops = [9, 8] ∧
    Law w ∧ ∀ e w', step w e = some w' → FreshKeys w e →
      ∀ key ∈ w.state.tracked, key ∉ w'.state.tracked → ConfirmsRemoval w e key := by
  have hstart : Reaches (fun w e => FreshKeys w e ∧ Careful w e) Traffic.start := .refl
  have hbuild : Reaches (fun w e => FreshKeys w e ∧ Careful w e) trioBuilt :=
    hstart.next (.build (trioArgs .create 0) trioDraws) (by decide +kernel)
      ⟨trivial, carefulBatch_of_check (by decide +kernel)⟩
  have hempty : trioBuilt.state.tracked = [] := by decide +kernel
  have hfresh : FreshKeys trioBuilt trioReceipt := by
    refine ⟨by decide, ?_⟩
    rw [hempty]
    simp
  have hcreated : Reaches (fun w e => FreshKeys w e ∧ Careful w e) trioTraffic :=
    hbuild.next trioReceipt (by decide +kernel) ⟨hfresh, trivial⟩
  have hpromoted := hcreated.next (.promote 30) rfl ⟨trivial, trivial⟩
  have hlast := hpromoted.next (.build (trioArgs .update 30) trioDraws) (by decide +kernel)
    ⟨trivial, carefulBatch_of_check (by decide +kernel)⟩
  refine ⟨_, ?_, ?_, law_of_reaches hlast⟩
  · decide +kernel
  · decide +kernel

/-- In a batch of three nothing is feasible behind `EXPIRE` and `CREATE`, and the reservation
    stays; a batch of two updates its only entity twice. -/
theorem not_law_of_reaches :
    (¬∀ w, Reaches FreshKeys w → w.state.expiredPending.Perm (expireTargets w.ops)) ∧
      ¬∀ w, Reaches FreshKeys w → (aliveTargets w.ops).Nodup := by
  have hsample : Reaches FreshKeys sampleTraffic := by
    refine reaches_sample.lift id fun w w' hstep => ?_
    obtain ⟨e, hstep, hfresh, -⟩ := hstep
    exact ⟨e, hstep, hfresh⟩
  constructor
  · intro h
    have hpromote := hsample.next (.promote 100) rfl trivial
    have hbuild := hpromote.next (.build (sampleArgs 100) (sampleDraws 3)) (by decide) trivial
    exact absurd (h _ hbuild) (by decide)
  · intro h
    have hbuild := hsample.next (.build (sampleArgs 0) (sampleDraws 2)) (by decide) trivial
    exact absurd (h _ hbuild) (by decide)

end Sample

end Arkiv.Simulate
