import Mathlib
import Arkiv.Model.Simulate

/-!
# Batches of the simulator

What the loop of `build_batch` does to the state: reservations off the end of the
queue, picks that nothing marks yet, and a way out that leaves the reservations.

## Main definitions

- `GivesUp` — the loop finds nothing feasible before the batch is full
- `FreshPicks` — the loop picks no entity twice
- `CarefulBatch` — the batch keeps what it reserves and works on each entity once
- `givesUp_iff`, `freshPicks_iff` — both are what the loop gives
-/

namespace Arkiv.Simulate

/-- The entity that an `EXPIRE` has reserved. -/
def PlannedOp.expireTarget (op : PlannedOp) : Option B256 :=
  if op.kind = .expire then some op.op.entityKey else none

def expireTargets (ops : List PlannedOp) : List B256 := ops.filterMap PlannedOp.expireTarget

/-- The alive entities that operations work on. -/
def aliveTargets (ops : List PlannedOp) : List B256 := ops.filterMap (·.target)

/-- The size that the batch is to have. -/
def targetSize (a : BatchArgs) (d : Draws) : ℕ := 1 + d 0 % max a.maxOpsPerTx 1

/-- With the expired entities reserved and the rest of the batch created, there is room for an
    operation but none is feasible. -/
def GivesUp (a : BatchArgs) (s : State) (createsInBatch room : ℕ) : Prop :=
  s.expired.length < room ∧
    feasible a { s with expired := [] } (createsInBatch + (room - s.expired.length - 1)) = []

/-- No draw of the loop gives an entity that the batch works on already. -/
def FreshPicks (a : BatchArgs) : ℕ → ℕ → List PlannedOp → State → Draws → Prop
  | 0, _, _, _, _ => True
  | room + 1, createsInBatch, ops, s, d =>
    ∀ kind d₁, pickOpKind a s createsInBatch d = some (some kind, d₁) →
      (kind ≠ .create → kind ≠ .expire → ∀ key d₂, pickOwnedAlive a s d₁ = some (some key, d₂) →
        key ∉ aliveTargets ops) ∧
      ∀ planned s' d₂, buildOp a s kind d₁ = some ((some planned, s'), d₂) →
        FreshPicks a room (if planned.kind = .create then createsInBatch + 1 else createsInBatch)
          (ops ++ [planned]) s' d₂

/-- A batch that gives up has reserved nothing, and one that is sent picks each entity once. -/
def CarefulBatch (a : BatchArgs) (s : State) (d : Draws) : Prop :=
  (GivesUp a s 0 (targetSize a d) → s.expired = []) ∧
    (¬GivesUp a s 0 (targetSize a d) → FreshPicks a (targetSize a d) 0 [] s fun i => d (i + 1))

section Random

variable {α β : Type} {x : Random α} {f : α → Random β} {d d' : Draws}

theorem bind_eq_some {r : β × Draws} :
    (x >>= f) d = some r ↔ ∃ a d₁, x d = some (a, d₁) ∧ f a d₁ = some r := by
  change (x d).bind (fun p => f p.1 p.2) = some r ↔ _
  rw [Option.bind_eq_some_iff, Prod.exists]

theorem pure_eq_some {a b : α} : (pure a : Random α) d = some (b, d') ↔ a = b ∧ d = d' := by
  change some (a, d) = some (b, d') ↔ _
  rw [Option.some.injEq, Prod.mk.injEq]

theorem map_eq_some {g : α → β} {b : β} :
    (g <$> x) d = some (b, d') ↔ ∃ a, x d = some (a, d') ∧ g a = b := by
  change (x d).bind (fun p => some (g p.1, p.2)) = some (b, d') ↔ _
  simp only [Option.bind_eq_some_iff, Prod.exists, Option.some.injEq, Prod.mk.injEq]
  constructor
  · rintro ⟨a, d₁, hx, rfl, rfl⟩
    exact ⟨a, hx, rfl⟩
  · rintro ⟨a, hx, rfl⟩
    exact ⟨a, d', hx, rfl, rfl⟩

end Random

section Building

variable {a : BatchArgs} {s s' : State} {d d' : Draws} {kind : OpKind} {planned : PlannedOp}

/-- What an operation of a kind does to the state: an expired entity is reserved, an alive one is
    picked and not yet marked. -/
inductive Built (a : BatchArgs) (s : State) (d : Draws) : OpKind → PlannedOp → State → Prop
  | create {planned : PlannedOp} (hkind : planned.kind = .create) (htarget : planned.target = none) :
      Built a s d .create planned s
  | owned {kind : OpKind} {planned : PlannedOp} {key : B256} {d' : Draws} (hcreate : kind ≠ .create)
      (hexpire : kind ≠ .expire) (hpick : pickOwnedAlive a s d = some (some key, d'))
      (hkind : planned.kind = kind) (htarget : planned.target = some key) : Built a s d kind planned s
  | expire {init : List B256} {key : B256} (hlast : s.expired = init ++ [key]) :
      Built a s d .expire ⟨.expire, .expire key, none, none, none⟩
        { s with expired := init, expiredPending := s.expiredPending ++ [key] }

theorem built_of_onOwned {build : B256 → Random (Option PlannedOp)} (hcreate : kind ≠ .create)
    (hexpire : kind ≠ .expire)
    (hbuild : ∀ key d planned d', build key d = some (some planned, d') →
      planned.kind = kind ∧ planned.target = some key)
    (h : onOwned a s build d = some ((some planned, s'), d')) : Built a s d kind planned s' := by
  obtain ⟨picked, d₁, hpick, h⟩ := bind_eq_some.mp h
  cases picked with
  | none =>
    obtain ⟨hnone, -⟩ := pure_eq_some.mp h
    cases hnone
  | some key =>
    obtain ⟨r, d₂, hr, h⟩ := bind_eq_some.mp h
    obtain ⟨hsome, rfl⟩ := pure_eq_some.mp h
    obtain ⟨rfl, rfl⟩ := Prod.mk.inj hsome
    obtain ⟨hkind, htarget⟩ := hbuild key d₁ planned d₂ hr
    exact .owned hcreate hexpire hpick hkind htarget

theorem buildUpdate_spec {key : B256} (h : buildUpdate key d = some (planned, d')) :
    planned.kind = .update ∧ planned.target = some key := by
  obtain ⟨size, d₁, -, h⟩ := bind_eq_some.mp h
  obtain ⟨payload, d₂, -, h⟩ := bind_eq_some.mp h
  obtain ⟨contentType, d₃, -, h⟩ := bind_eq_some.mp h
  obtain ⟨rfl, -⟩ := pure_eq_some.mp h
  exact ⟨rfl, rfl⟩

theorem buildExtend_spec {key : B256} {e : AliveEntity}
    (h : buildExtend a key e d = some (planned, d')) :
    planned.kind = .extend ∧ planned.target = some key := by
  obtain ⟨bump, d₁, -, h⟩ := bind_eq_some.mp h
  obtain ⟨rfl, -⟩ := pure_eq_some.mp h
  exact ⟨rfl, rfl⟩

theorem buildTransfer_spec {key : B256} (h : buildTransfer a key d = some (planned, d')) :
    planned.kind = .transfer ∧ planned.target = some key := by
  obtain ⟨drawn, d₁, -, h⟩ := bind_eq_some.mp h
  obtain ⟨rfl, -⟩ := pure_eq_some.mp h
  exact ⟨rfl, rfl⟩

theorem buildCreate_spec (h : buildCreate a d = some (planned, d')) :
    planned.kind = .create ∧ planned.target = none := by
  obtain ⟨lifespan, d₁, -, h⟩ := bind_eq_some.mp h
  obtain ⟨size, d₂, -, h⟩ := bind_eq_some.mp h
  obtain ⟨payload, d₃, -, h⟩ := bind_eq_some.mp h
  obtain ⟨contentType, d₄, -, h⟩ := bind_eq_some.mp h
  obtain ⟨rfl, -⟩ := pure_eq_some.mp h
  exact ⟨rfl, rfl⟩

/-- **Operations**: what `build_op` gives, for each kind. -/
theorem built_of_buildOp (h : buildOp a s kind d = some ((some planned, s'), d')) :
    Built a s d kind planned s' := by
  cases kind with
  | create =>
    obtain ⟨planned', d₁, hbuild, h⟩ := bind_eq_some.mp h
    obtain ⟨hsome, -⟩ := pure_eq_some.mp h
    obtain ⟨hplanned, rfl⟩ := Prod.mk.inj hsome
    obtain rfl := Option.some.inj hplanned
    obtain ⟨hkind, htarget⟩ := buildCreate_spec hbuild
    exact .create hkind htarget
  | update =>
    refine built_of_onOwned (by decide) (by decide) (fun key d planned d' hbuild => ?_) h
    obtain ⟨planned', hupdate, hplanned⟩ := map_eq_some.mp hbuild
    obtain rfl := Option.some.inj hplanned
    exact buildUpdate_spec hupdate
  -- An extend reads the entity again, which is there as the pick was among the alive ones.
  | extend =>
    refine built_of_onOwned (by decide) (by decide) (fun key d planned d' hbuild => ?_) h
    cases hentity : s.alive.lookup key with
    | none =>
      rw [hentity] at hbuild
      obtain ⟨hnone, -⟩ := pure_eq_some.mp hbuild
      cases hnone
    | some e =>
      rw [hentity] at hbuild
      obtain ⟨planned', hextend, hplanned⟩ := map_eq_some.mp hbuild
      obtain rfl := Option.some.inj hplanned
      exact buildExtend_spec hextend
  | transfer =>
    refine built_of_onOwned (by decide) (by decide) (fun key d planned d' hbuild => ?_) h
    obtain ⟨planned', htransfer, hplanned⟩ := map_eq_some.mp hbuild
    obtain rfl := Option.some.inj hplanned
    exact buildTransfer_spec htransfer
  | delete =>
    refine built_of_onOwned (by decide) (by decide) (fun key d planned d' hbuild => ?_) h
    obtain ⟨hplanned, -⟩ := pure_eq_some.mp hbuild
    obtain rfl := Option.some.inj hplanned
    exact ⟨rfl, rfl⟩
  | expire =>
    obtain ⟨hexpire, -⟩ := pure_eq_some.mp h
    unfold buildExpire at hexpire
    split at hexpire
    · cases hexpire
    · next key hlast =>
      obtain ⟨hplanned, rfl⟩ := Prod.mk.inj hexpire
      obtain rfl := Option.some.inj hplanned
      refine .expire ?_
      -- `pop` takes the last key of the queue.
      obtain ⟨init, hinit⟩ := List.getLast?_eq_some_iff.mp hlast
      rw [hinit, List.dropLast_concat]

theorem mem_candidates {key : B256} : key ∈ candidates a s ↔
    ∃ e, s.alive.lookup key = some e ∧ e.ownerIdx = a.signerIdx ∧ e.pending = false := by
  simp only [candidates, List.mem_map, List.mem_filter, Bool.and_eq_true, beq_iff_eq,
    Bool.not_eq_true']
  constructor
  · rintro ⟨⟨key, e⟩, ⟨hmem, howner, hpending⟩, rfl⟩
    exact ⟨e, AList.mem_lookup_iff.mpr hmem, howner, hpending⟩
  · rintro ⟨e, hlookup, howner, hpending⟩
    exact ⟨⟨key, e⟩, ⟨AList.mem_lookup_iff.mp hlookup, howner, hpending⟩, rfl⟩

/-- What is picked is one of the candidates. -/
theorem mem_candidates_of_pick {key : B256} (h : pickOwnedAlive a s d = some (some key, d')) :
    key ∈ candidates a s := by
  unfold pickOwnedAlive choose at h
  split at h
  · cases (Prod.mk.inj (Option.some.inj h)).1
  · exact List.mem_of_getElem? (Prod.mk.inj (Option.some.inj h)).1

/-- Without an operation there was nothing to pick. -/
theorem onOwned_none {build : B256 → Random (Option PlannedOp)}
    (hbuild : ∀ key ∈ candidates a s, ∀ d d', build key d ≠ some (none, d'))
    (h : onOwned a s build d = some ((none, s'), d')) :
    s' = s ∧ ∀ key d₁, pickOwnedAlive a s d ≠ some (some key, d₁) := by
  obtain ⟨picked, d₁, hpick, h⟩ := bind_eq_some.mp h
  cases picked with
  | none =>
    obtain ⟨hnone, -⟩ := pure_eq_some.mp h
    refine ⟨(Prod.mk.inj hnone).2.symm, fun key d₂ hkey => ?_⟩
    rw [hpick] at hkey
    cases (Prod.mk.inj (Option.some.inj hkey)).1
  | some key =>
    obtain ⟨r, d₂, hr, h⟩ := bind_eq_some.mp h
    obtain ⟨hnone, -⟩ := pure_eq_some.mp h
    obtain rfl := (Prod.mk.inj hnone).1
    exact absurd hr (hbuild key (mem_candidates_of_pick hpick) d₁ d₂)

theorem map_some_ne_none {x : Random PlannedOp} : (some <$> x) d ≠ some (none, d') := by
  intro h
  obtain ⟨planned, -, hplanned⟩ := map_eq_some.mp h
  cases hplanned

/-- Without an operation nothing has happened, and nothing was picked. -/
theorem buildOp_none (h : buildOp a s kind d = some ((none, s'), d')) :
    s' = s ∧ (kind ≠ .create → kind ≠ .expire →
      ∀ key d₁, pickOwnedAlive a s d ≠ some (some key, d₁)) := by
  cases kind with
  | create =>
    obtain ⟨planned', d₁, -, h⟩ := bind_eq_some.mp h
    obtain ⟨hsome, -⟩ := pure_eq_some.mp h
    cases (Prod.mk.inj hsome).1
  -- The kinds on owned entities give up only where the pick finds none.
  | update =>
    refine (onOwned_none (fun key _ d d' => ?_) h).imp id fun hpick _ _ => hpick
    exact map_some_ne_none
  | extend =>
    refine (onOwned_none (fun key hkey d d' => ?_) h).imp id fun hpick _ _ => hpick
    obtain ⟨e, hentity, -⟩ := mem_candidates.mp hkey
    rw [hentity]
    exact map_some_ne_none
  | transfer =>
    refine (onOwned_none (fun key _ d d' => ?_) h).imp id fun hpick _ _ => hpick
    exact map_some_ne_none
  | delete =>
    refine (onOwned_none (fun key _ d d' hnone => ?_) h).imp id fun hpick _ _ => hpick
    cases (pure_eq_some.mp hnone).1
  | expire =>
    obtain ⟨hexpire, -⟩ := pure_eq_some.mp h
    refine ⟨?_, fun _ hkind => absurd rfl hkind⟩
    unfold buildExpire at hexpire
    split at hexpire
    · exact (Prod.mk.inj hexpire).2.symm
    · cases (Prod.mk.inj hexpire).1

end Building

/-- An operation works on an alive entity, except for what creates or expires. -/
def PlannedOp.Placed (op : PlannedOp) : Prop :=
  op.target = none ↔ op.kind = .create ∨ op.kind = .expire

section Loop

variable {a : BatchArgs} {s s' t : State} {d d' : Draws} {new ops : List PlannedOp}

/-- What the loop does while it plans `new`: reservations off the end of the queue, and picks. -/
structure Loop (a : BatchArgs) (s s' : State) (new : List PlannedOp) : Prop where
  alive : s'.alive = s.alive
  expired : s.expired = s'.expired ++ (expireTargets new).reverse
  pending : s'.expiredPending = s.expiredPending ++ expireTargets new
  placed : ∀ op ∈ new, op.Placed
  picked : ∀ key ∈ aliveTargets new, key ∈ candidates a s

theorem candidates_congr (h : s'.alive = s.alive) : candidates a s' = candidates a s := by
  rw [candidates, h, candidates]

theorem Loop.refl : Loop a s s [] := by
  refine ⟨rfl, ?_, ?_, by simp, by simp [aliveTargets]⟩
  · simp [expireTargets]
  · simp [expireTargets]

theorem Loop.trans {more : List PlannedOp} (h : Loop a s s' new) (h' : Loop a s' t more) :
    Loop a s t (new ++ more) := by
  refine ⟨h'.alive.trans h.alive, ?_, ?_, ?_, ?_⟩
  · simp only [h.expired, h'.expired, expireTargets, List.filterMap_append, List.reverse_append,
      List.append_assoc]
  · simp only [h'.pending, h.pending, expireTargets, List.filterMap_append, List.append_assoc]
  · intro op hop
    exact (List.mem_append.mp hop).elim (h.placed op) (h'.placed op)
  · intro key hkey
    rw [aliveTargets, List.filterMap_append] at hkey
    refine (List.mem_append.mp hkey).elim (h.picked key) fun hkey => ?_
    rw [← candidates_congr h.alive]
    exact h'.picked key hkey

theorem Built.loop {kind : OpKind} {planned : PlannedOp} (h : Built a s d kind planned s') :
    Loop a s s' [planned] := by
  cases h with
  | create hkind htarget =>
    have hnone : planned.expireTarget = none := by rw [PlannedOp.expireTarget, hkind, if_neg (by decide)]
    refine ⟨rfl, by simp [expireTargets, hnone], by simp [expireTargets, hnone], ?_, ?_⟩
    · simp [PlannedOp.Placed, hkind, htarget]
    · simp [aliveTargets, htarget]
  | owned hcreate hexpire hpick hkind htarget =>
    have hnone : planned.expireTarget = none := by rw [PlannedOp.expireTarget, hkind, if_neg hexpire]
    refine ⟨rfl, by simp [expireTargets, hnone], by simp [expireTargets, hnone], ?_, ?_⟩
    · simp [PlannedOp.Placed, hkind, htarget, hcreate, hexpire]
    · intro key hkey
      obtain rfl : key = _ := by simpa [aliveTargets, htarget] using hkey
      exact mem_candidates_of_pick hpick
  | expire hlast =>
    refine ⟨rfl, by simpa [expireTargets, PlannedOp.expireTarget, Operation.entityKey] using hlast,
      ?_, ?_, ?_⟩
    · simp [expireTargets, PlannedOp.expireTarget, Operation.entityKey]
    · simp [PlannedOp.Placed]
    · simp [aliveTargets]

/-- The loop's plan, or none, after what it has planned. -/
theorem loop_of_buildLoop {room createsInBatch : ℕ} {r : Option (List PlannedOp)}
    (h : buildLoop a room createsInBatch ops s d = some ((r, s'), d')) :
    ∃ new, Loop a s s' new ∧ ∀ all ∈ r, all = ops ++ new := by
  induction room generalizing createsInBatch ops s d with
  | zero =>
    obtain ⟨hr, -⟩ := pure_eq_some.mp h
    obtain ⟨rfl, rfl⟩ := Prod.mk.inj hr
    exact ⟨[], .refl, by simp⟩
  | succ room ih =>
    obtain ⟨picked, d₁, -, h⟩ := bind_eq_some.mp h
    cases picked with
    | none =>
      obtain ⟨hr, -⟩ := pure_eq_some.mp h
      obtain ⟨rfl, rfl⟩ := Prod.mk.inj hr
      exact ⟨[], .refl, by simp⟩
    | some kind =>
      obtain ⟨⟨built, s₁⟩, d₂, hbuild, hrest⟩ := bind_eq_some.mp h
      cases built with
      | none =>
        obtain ⟨hr, -⟩ := pure_eq_some.mp hrest
        obtain ⟨rfl, rfl⟩ := Prod.mk.inj hr
        rw [(buildOp_none hbuild).1]
        exact ⟨[], .refl, by simp⟩
      | some planned =>
        obtain ⟨new, hloop, hall⟩ := ih hrest
        refine ⟨[planned] ++ new, (built_of_buildOp hbuild).loop.trans hloop, fun all hr => ?_⟩
        rw [hall all hr, List.append_assoc]

/-- An operation adds its pick to the targets. -/
theorem Built.nodup_iff {kind : OpKind} {planned : PlannedOp} (h : Built a s d kind planned s')
    (hnodup : (aliveTargets ops).Nodup) :
    (aliveTargets (ops ++ [planned])).Nodup ↔
      (kind ≠ .create → kind ≠ .expire → ∀ key d₂, pickOwnedAlive a s d = some (some key, d₂) →
        key ∉ aliveTargets ops) := by
  cases h with
  | create hkind htarget =>
    refine iff_of_true ?_ fun hcreate => absurd rfl hcreate
    simpa [aliveTargets, htarget] using hnodup
  | @owned _ _ key d' hcreate hexpire hpick hkind htarget =>
    have happend : aliveTargets (ops ++ [planned]) = aliveTargets ops ++ [key] := by
      simp [aliveTargets, htarget]
    rw [happend, ← List.concat_eq_append, List.nodup_concat, and_iff_left hnodup]
    constructor
    · intro hkey _ _ key' d₂ hpick'
      obtain ⟨hsame, -⟩ := Prod.mk.inj (Option.some.inj (hpick.symm.trans hpick'))
      rwa [← Option.some.inj hsame]
    · intro hfresh
      exact hfresh hcreate hexpire key d' hpick
  | expire hlast =>
    refine iff_of_true ?_ fun _ hexpire => absurd rfl hexpire
    simpa [aliveTargets] using hnodup

/-- Picks are fresh exactly when no entity is a target twice. -/
theorem freshPicks_iff {room createsInBatch : ℕ} {all : List PlannedOp}
    (hnodup : (aliveTargets ops).Nodup)
    (h : buildLoop a room createsInBatch ops s d = some ((some all, s'), d')) :
    FreshPicks a room createsInBatch ops s d ↔ (aliveTargets all).Nodup := by
  -- By induction on the rounds that are left, along the draws that the loop has really made.
  induction room generalizing createsInBatch ops s d with
  | zero =>
    obtain ⟨hr, -⟩ := pure_eq_some.mp h
    obtain rfl := Option.some.inj (Prod.mk.inj hr).1
    exact iff_of_true trivial hnodup
  | succ room ih =>
    obtain ⟨picked, d₁, hpicked, h⟩ := bind_eq_some.mp h
    cases picked with
    | none =>
      obtain ⟨hr, -⟩ := pure_eq_some.mp h
      cases (Prod.mk.inj hr).1
    | some kind =>
      obtain ⟨⟨built, s₁⟩, d₂, hbuild, hrest⟩ := bind_eq_some.mp h
      have hsame : ∀ {kind' d'}, pickOpKind a s createsInBatch d = some (some kind', d') →
          kind' = kind ∧ d' = d₁ := by
        intro kind' d' hpicked'
        obtain ⟨hkind, hd⟩ := Prod.mk.inj (Option.some.inj (hpicked'.symm.trans hpicked))
        exact ⟨Option.some.inj hkind, hd⟩
      cases built with
      | none =>
        obtain ⟨hr, -⟩ := pure_eq_some.mp hrest
        obtain rfl := Option.some.inj (Prod.mk.inj hr).1
        refine iff_of_true (fun kind' d' hpicked' => ?_) hnodup
        obtain ⟨rfl, rfl⟩ := hsame hpicked'
        refine ⟨fun hcreate hexpire key d₃ hpick => ?_, fun planned s₂ d₃ hbuild' => ?_⟩
        · exact absurd hpick ((buildOp_none hbuild).2 hcreate hexpire key d₃)
        · rw [hbuild] at hbuild'
          cases (Prod.mk.inj (Prod.mk.inj (Option.some.inj hbuild')).1).1
      -- One more operation: its target is fresh exactly when the targets so far stay distinct.
      | some planned =>
        have hbuilt := (built_of_buildOp hbuild).nodup_iff hnodup
        constructor
        · intro hfresh
          obtain ⟨hpick, hgo⟩ := hfresh kind d₁ hpicked
          exact (ih (hbuilt.mpr hpick) hrest).mp (hgo planned s₁ d₂ hbuild)
        · intro hall kind' d' hpicked'
          obtain ⟨rfl, rfl⟩ := hsame hpicked'
          obtain ⟨new, -, hnew⟩ := loop_of_buildLoop hrest
          have hlast : (aliveTargets (ops ++ [planned])).Nodup := by
            rw [hnew all rfl, aliveTargets, List.filterMap_append] at hall
            exact (List.nodup_append.mp hall).1
          refine ⟨hbuilt.mp hlast, fun planned' s₂ d₃ hbuild' => ?_⟩
          obtain ⟨hout, rfl⟩ := Prod.mk.inj (Option.some.inj (hbuild.symm.trans hbuild'))
          obtain ⟨hplanned, rfl⟩ := Prod.mk.inj hout
          obtain rfl := Option.some.inj hplanned
          exact (ih hlast hrest).mpr hall

end Loop

section GivingUp

variable {a : BatchArgs} {s s' : State} {d d' : Draws} {c c' : ℕ}

theorem rollKind_none {kinds : List (OpKind × UInt32)} {roll : UInt32}
    (h : rollKind kinds roll = none) : (kinds.map (·.2.toNat)).sum ≤ roll.toNat := by
  induction kinds generalizing roll with
  | nil => exact Nat.zero_le _
  | cons w kinds ih =>
    obtain ⟨kind, weight⟩ := w
    rw [rollKind] at h
    split_ifs at h with hlt
    have hle : weight ≤ roll := UInt32.not_lt.mp hlt
    have hrest := ih h
    rw [UInt32.toNat_sub_of_le _ _ hle] at hrest
    have hweight := UInt32.le_iff_toNat_le.mp hle
    simp only [List.map_cons, List.sum_cons]
    omega

theorem mem_of_rollKind {kinds : List (OpKind × UInt32)} {roll : UInt32} {kind : OpKind}
    (h : rollKind kinds roll = some kind) : ∃ weight, (kind, weight) ∈ kinds := by
  induction kinds generalizing roll with
  | nil => cases h
  | cons w kinds ih =>
    obtain ⟨kind', weight⟩ := w
    rw [rollKind] at h
    split_ifs at h with hlt
    · obtain rfl := Option.some.inj h
      exact ⟨weight, List.mem_cons_self⟩
    · obtain ⟨weight', hmem⟩ := ih h
      exact ⟨weight', List.mem_cons_of_mem _ hmem⟩

/-- Sums that wrap are not too large. -/
theorem toNat_sum_le (weights : List UInt32) :
    weights.sum.toNat ≤ (weights.map UInt32.toNat).sum := by
  induction weights with
  | nil => exact Nat.zero_le _
  | cons weight weights ih =>
    rw [List.sum_cons, List.map_cons, List.sum_cons, UInt32.toNat_add]
    have hmod := Nat.mod_le (weight.toNat + weights.sum.toNat) (2 ^ 32)
    omega

theorem pickOpKind_expire {picked : Option OpKind} (hne : s.expired ≠ [])
    (h : pickOpKind a s c d = some (picked, d')) : picked = some .expire := by
  rw [pickOpKind, if_pos hne] at h
  exact (pure_eq_some.mp h).1.symm

theorem lt_of_randomRange {lo hi n : ℕ} (h : randomRange lo hi d = some (n, d')) : n < hi := by
  unfold randomRange at h
  split_ifs at h with hlt
  obtain ⟨rfl, -⟩ := Prod.mk.inj (Option.some.inj h)
  have hmod := Nat.mod_lt (d 0) (Nat.sub_pos_of_lt hlt)
  omega

/-- No kind is picked when none is feasible. -/
theorem pickOpKind_none (hexpired : s.expired = [])
    (h : pickOpKind a s c d = some (none, d')) : feasible a s c = [] := by
  by_contra hne
  rw [pickOpKind, if_neg (not_not.mpr hexpired), if_neg hne] at h
  obtain ⟨roll, d₁, hroll, h⟩ := bind_eq_some.mp h
  have hlt := lt_of_randomRange hroll
  have hle := rollKind_none (pure_eq_some.mp h).1
  rw [UInt32.toNat_ofNat_of_lt' (lt_trans hlt (UInt32.toNat_lt _))] at hle
  have hsum := toNat_sum_le ((feasible a s c).map (·.2))
  rw [List.map_map] at hsum
  exact absurd (lt_of_lt_of_le hlt hsum) (not_lt.mpr hle)

theorem mem_feasible_of_pick {kind : OpKind} (hexpired : s.expired = [])
    (h : pickOpKind a s c d = some (some kind, d')) :
    ∃ weight, (kind, weight) ∈ feasible a s c := by
  rw [pickOpKind, if_neg (not_not.mpr hexpired)] at h
  split_ifs at h with hnil
  · cases (pure_eq_some.mp h).1
  · obtain ⟨roll, d₁, -, h⟩ := bind_eq_some.mp h
    exact mem_of_rollKind (pure_eq_some.mp h).1

/-- Creations in a batch only make creations infeasible. -/
theorem mem_feasible_of_le {w : OpKind × UInt32} (hle : c ≤ c') (h : w ∈ feasible a s c') :
    w ∈ feasible a s c := by
  obtain ⟨hmem, hw⟩ := List.mem_filter.mp h
  refine List.mem_filter.mpr ⟨hmem, ?_⟩
  rw [Bool.and_eq_true] at hw ⊢
  refine ⟨hw.1, ?_⟩
  have hfeasible := hw.2
  cases hkind : w.1 with
  | create =>
    simp only [hkind, isFeasible, decide_eq_true_eq] at hfeasible ⊢
    omega
  | update | extend | delete | transfer | expire => simpa only [hkind, isFeasible] using hfeasible

theorem mem_feasible_of_ne_create {w : OpKind × UInt32} (hkind : w.1 ≠ .create)
    (h : w ∈ feasible a s c) : w ∈ feasible a s c' := by
  obtain ⟨hmem, hw⟩ := List.mem_filter.mp h
  refine List.mem_filter.mpr ⟨hmem, ?_⟩
  rw [Bool.and_eq_true] at hw ⊢
  refine ⟨hw.1, ?_⟩
  have hfeasible := hw.2
  cases hw1 : w.1 with
  | create => exact absurd hw1 hkind
  | update | extend | delete | transfer | expire => simpa only [hw1, isFeasible] using hfeasible

theorem feasible_congr (halive : s'.alive = s.alive) :
    feasible a { s' with expired := [] } c = feasible a { s with expired := [] } c := by
  have hfeasible : ∀ kind, isFeasible a { s' with expired := [] } c kind =
      isFeasible a { s with expired := [] } c kind := by
    intro kind
    cases kind with
    | create => rw [isFeasible, isFeasible, State.aliveCount, State.aliveCount, halive]
    | update | extend | delete | transfer =>
      simp only [isFeasible, ownedAvailable, halive]
    | expire => rfl
  simp only [feasible, hfeasible]

/-- Creations succeed, and so does the reservation of an expired entity. -/
theorem buildOp_none_kind {kind : OpKind} (h : buildOp a s kind d = some ((none, s'), d')) :
    kind ≠ .create ∧ (kind = .expire → s.expired = []) := by
  constructor
  · rintro rfl
    obtain ⟨planned, d₁, -, h⟩ := bind_eq_some.mp h
    cases (Prod.mk.inj (pure_eq_some.mp h).1).1
  · rintro rfl
    have hexpire := (pure_eq_some.mp h).1
    unfold buildExpire at hexpire
    split at hexpire
    · next hlast => exact List.getLast?_eq_none_iff.mp hlast
    · cases (Prod.mk.inj hexpire).1

theorem givesUp_of_nil {room : ℕ} (hexpired : s.expired = []) :
    GivesUp a s c (room + 1) ↔ feasible a s (c + room) = [] := by
  have hself : { s with expired := [] } = s := by rw [← hexpired]
  rw [GivesUp, hself, hexpired]
  simp

theorem givesUp_expire {room : ℕ} {init pending : List B256} {key : B256}
    (hlast : s.expired = init ++ [key]) :
    GivesUp a { s with expired := init, expiredPending := pending } c room ↔
      GivesUp a s c (room + 1) := by
  rw [GivesUp, GivesUp, hlast, List.length_append, List.length_singleton]
  have hfeasible : ∀ n, feasible a { s with expired := [], expiredPending := pending } n =
      feasible a { s with expired := [] } n := fun n =>
    feasible_congr (s := s) (rfl : (State.mk s.alive init pending s.counts).alive = s.alive)
  dsimp only
  rw [hfeasible, show room + 1 - (init.length + 1) - 1 = room - init.length - 1 by omega]
  exact and_congr_left fun _ => (Nat.add_lt_add_iff_right).symm

/-- **Giving up** is a matter of the state in front of the loop. -/
theorem givesUp_iff {room : ℕ} {ops : List PlannedOp} {r : Option (List PlannedOp)}
    (h : buildLoop a room c ops s d = some ((r, s'), d')) : r = none ↔ GivesUp a s c room := by
  induction room generalizing c ops s d with
  | zero =>
    obtain ⟨hr, -⟩ := pure_eq_some.mp h
    obtain ⟨rfl, -⟩ := Prod.mk.inj hr
    exact iff_of_false (by simp) fun hgives => Nat.not_lt_zero _ hgives.1
  | succ room ih =>
    obtain ⟨picked, d₁, hpicked, h⟩ := bind_eq_some.mp h
    by_cases hexpired : s.expired = []
    · rw [givesUp_of_nil hexpired]
      cases picked with
      | none =>
        obtain ⟨hr, -⟩ := pure_eq_some.mp h
        obtain ⟨rfl, -⟩ := Prod.mk.inj hr
        refine iff_of_true rfl (List.eq_nil_iff_forall_not_mem.mpr fun w hw => ?_)
        have hmem := mem_feasible_of_le (Nat.le_add_right c room) hw
        rw [pickOpKind_none hexpired hpicked] at hmem
        cases hmem
      | some kind =>
        obtain ⟨⟨built, s₁⟩, d₂, hbuild, hrest⟩ := bind_eq_some.mp h
        obtain ⟨weight, hfeasible⟩ := mem_feasible_of_pick hexpired hpicked
        -- a kind that works on an entity is as feasible at the end
        have howned : kind ≠ .create → ∀ c', feasible a s c' ≠ [] := by
          intro hkind c' hnil
          have hmem : _ ∈ feasible a s c' := mem_feasible_of_ne_create hkind hfeasible
          rw [hnil] at hmem
          cases hmem
        cases built with
        | none =>
          obtain ⟨hr, -⟩ := pure_eq_some.mp hrest
          obtain ⟨rfl, -⟩ := Prod.mk.inj hr
          exact iff_of_false (by simp) (howned (buildOp_none_kind hbuild).1 _)
        | some planned =>
          have hstep := ih hrest
          cases built_of_buildOp hbuild with
          | create hkind htarget =>
            rw [if_pos hkind] at hstep
            rw [hstep]
            cases room with
            | zero =>
              refine iff_of_false (fun hgives => Nat.not_lt_zero _ hgives.1) fun hnil => ?_
              rw [Nat.add_zero] at hnil
              rw [hnil] at hfeasible
              cases hfeasible
            | succ room =>
              rw [givesUp_of_nil hexpired, Nat.add_right_comm, Nat.add_assoc]
          | owned hcreate hexpire hpick hkind htarget =>
            rw [hstep]
            refine iff_of_false (fun hgives => ?_) (howned hcreate _)
            have hself : { s with expired := [] } = s := by rw [← hexpired]
            have hnil := hgives.2
            rw [hself] at hnil
            exact howned hcreate _ hnil
          | expire hlast =>
            rw [hexpired] at hlast
            simp at hlast
    · have hkind := pickOpKind_expire hexpired hpicked
      subst hkind
      obtain ⟨⟨built, s₁⟩, d₂, hbuild, hrest⟩ := bind_eq_some.mp h
      cases built with
      | none => exact absurd ((buildOp_none_kind hbuild).2 rfl) hexpired
      | some planned =>
        have hstep := ih hrest
        cases built_of_buildOp hbuild with
        | owned hcreate hexpire hpick hkind htarget => exact absurd rfl hexpire
        | expire hlast =>
          rw [if_neg (by simp)] at hstep
          rw [hstep, givesUp_expire hlast]

/-- Where the loop gives up the queue is empty. -/
theorem expired_of_none {room : ℕ} {ops : List PlannedOp}
    (h : buildLoop a room c ops s d = some ((none, s'), d')) : s'.expired = [] := by
  induction room generalizing c ops s d with
  | zero => cases (Prod.mk.inj (pure_eq_some.mp h).1).1
  | succ room ih =>
    obtain ⟨picked, d₁, hpicked, h⟩ := bind_eq_some.mp h
    cases picked with
    | none =>
      obtain ⟨-, rfl⟩ := Prod.mk.inj (pure_eq_some.mp h).1
      by_contra hne
      cases pickOpKind_expire hne hpicked
    | some kind =>
      obtain ⟨⟨built, s₁⟩, d₂, -, hrest⟩ := bind_eq_some.mp h
      cases built with
      | none => cases (Prod.mk.inj (pure_eq_some.mp hrest).1).1
      | some planned => exact ih hrest

end GivingUp

section Batch

variable {a : BatchArgs} {s s' : State} {d d' : Draws}

/-- What is sent, or the state in which nothing is. -/
theorem buildBatch_cases {r : Option BatchPlan} (h : buildBatch a s d = some ((r, s'), d')) :
    ∃ all s₁, buildLoop a (targetSize a d) 0 [] s (fun i => d (i + 1)) = some ((all, s₁), d') ∧
      ((r = none ∧ s' = s₁ ∧ ∀ ops ∈ all, ops = []) ∨
        ∃ ops, all = some ops ∧ r = some ⟨a.signerIdx, ops⟩ ∧
          s' = recordAllSent (markPending s₁ ops) ops) := by
  obtain ⟨size, d₁, hsize, h⟩ := bind_eq_some.mp h
  obtain ⟨⟨all, s₁⟩, d₂, hloop, h⟩ := bind_eq_some.mp h
  unfold randomRange at hsize
  rw [if_pos (by omega), Nat.add_sub_cancel] at hsize
  obtain ⟨rfl, rfl⟩ := Prod.mk.inj (Option.some.inj hsize)
  cases all with
  | none =>
    obtain ⟨hr, rfl⟩ := pure_eq_some.mp h
    obtain ⟨rfl, rfl⟩ := Prod.mk.inj hr
    exact ⟨none, s₁, hloop, .inl ⟨rfl, rfl, by simp⟩⟩
  | some ops =>
    dsimp only at h
    split_ifs at h with hempty
    · obtain ⟨hr, rfl⟩ := pure_eq_some.mp h
      obtain ⟨rfl, rfl⟩ := Prod.mk.inj hr
      exact ⟨some ops, s₁, hloop, .inl ⟨rfl, rfl, by simpa using hempty⟩⟩
    · obtain ⟨hr, rfl⟩ := pure_eq_some.mp h
      obtain ⟨rfl, rfl⟩ := Prod.mk.inj hr
      exact ⟨some ops, s₁, hloop, .inr ⟨ops, rfl, rfl, rfl⟩⟩

end Batch

end Arkiv.Simulate
