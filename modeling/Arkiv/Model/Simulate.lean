import Mathlib
import Arkiv.Model.Abi
import Arkiv.Model.StateAdapter

/-!
# The traffic simulator

The pool of entities behind the load generator, the batches that are built from
it and what a receipt does to it. Random choices come out of a stream of draws.

## Main definitions

- `State` — entities by where they are: alive, expired, or on the way to `EXPIRE`
- `State.promoteExpired` — alive entities past their expiry
- `buildBatch` — a batch of one signer, with the entities it reserves
- `applySuccess`, `applyFailure` — the receipt of a batch
-/

namespace Arkiv.Simulate

open ByteString

inductive OpKind where
  | create
  | update
  | extend
  | transfer
  | delete
  | expire
deriving DecidableEq, Repr

structure AliveEntity where
  ownerIdx : ℕ
  expiresAt : UInt32
  pending : Bool
deriving DecidableEq, Repr

structure Counters where
  sent : ℕ
  confirmed : ℕ
  failed : ℕ
deriving DecidableEq, Repr

/-- A hash map is a list of entries in the order of its iteration, each key once. -/
structure State where
  alive : AList fun _ : B256 => AliveEntity
  expired : List B256
  expiredPending : List B256
  counts : OpKind → Counters

/-- The constructors of `Operation` in the bindings. -/
inductive Operation where
  | create (btl : UInt32) (payload : Bytes) (contentType : String) (attributes : List AbiAttribute)
  | update (key : B256) (payload : Bytes) (contentType : String) (attributes : List AbiAttribute)
  | extend (key : B256) (btl : UInt32)
  | transfer (key : B256) (newOwner : Address)
  | delete (key : B256)
  | expire (key : B256)
deriving DecidableEq

def Operation.entityKey : Operation → B256
  | create .. => 0
  | update key .. | extend key _ | transfer key _ | delete key | expire key => key

structure PlannedOp where
  kind : OpKind
  op : Operation
  target : Option B256
  newExpiresAt : Option UInt32
  newOwnerIdx : Option ℕ
deriving DecidableEq

structure BatchPlan where
  signerIdx : ℕ
  ops : List PlannedOp
deriving DecidableEq

namespace State

/-- `State::default()`. -/
def start : State := ⟨∅, [], [], fun _ => ⟨0, 0, 0⟩⟩

def count (s : State) (op : OpKind) (f : Counters → Counters) : State :=
  { s with counts := Function.update s.counts op (f (s.counts op)) }

def recordSent (s : State) (op : OpKind) : State :=
  s.count op fun c => { c with sent := c.sent + 1 }

def recordConfirmed (s : State) (op : OpKind) : State :=
  s.count op fun c => { c with confirmed := c.confirmed + 1 }

def recordFailed (s : State) (op : OpKind) : State :=
  s.count op fun c => { c with failed := c.failed + 1 }

/-- `alive.get_mut(&key)` and a change, where there is a key. -/
def modify (s : State) (target : Option B256) (f : AliveEntity → AliveEntity) : State :=
  match target with
  | none => s
  | some key =>
    match s.alive.lookup key with
    | none => s
    | some e => { s with alive := s.alive.insert key (f e) }

/-- One round of the second loop of `promote_expired`. -/
def expire (s : State) (key : B256) : State :=
  { s with alive := s.alive.erase key, expired := s.expired ++ [key] }

/-- Alive entities past `currentBlock` that no batch works on. -/
def toExpire (s : State) (currentBlock : UInt32) : List B256 :=
  (s.alive.entries.filter fun e => !e.2.pending && e.2.expiresAt ≤ currentBlock).map (·.1)

def promoteExpired (s : State) (currentBlock : UInt32) : State :=
  (s.toExpire currentBlock).foldl expire s

def aliveCount (s : State) : ℕ := s.alive.entries.length

end State

/-- What the generator is going to draw. -/
abbrev Draws := ℕ → ℕ

/-- What is computed from draws; `none` is a panic. -/
abbrev Random := StateT Draws Option

/-- `random_range(lo..hi)`. An empty range panics. -/
def randomRange (lo hi : ℕ) : Random ℕ := fun d =>
  if lo < hi then some (lo + d 0 % (hi - lo), fun i => d (i + 1)) else none

/-- `choose` of `IndexedRandom`. -/
def choose {α : Type} (xs : List α) : Random (Option α) := fun d =>
  if xs = [] then some (none, d) else some (xs[d 0 % xs.length]?, fun i => d (i + 1))

def randomPayload (size : ℕ) : Random Bytes := fun d =>
  some ((List.range size).map fun i => UInt8.ofNat (d i), fun i => d (i + size))

def mimeTypes : List String :=
  ["application/json", "application/octet-stream", "text/plain", "image/png", "image/jpeg"]

def randomContentType : Random String := do
  let s ← choose mimeTypes
  return s.getD "application/json"

/-- The arguments of `build_batch` next to the state. -/
structure BatchArgs where
  signerIdx : ℕ
  weights : List (OpKind × UInt32)
  maxAlive : ℕ
  maxOpsPerTx : ℕ
  signerCount : ℕ
  currentBlock : UInt64

section Building

variable (a : BatchArgs) (state : State)

def ownedAvailable : Bool :=
  state.alive.entries.any fun e => e.2.ownerIdx == a.signerIdx && !e.2.pending

def isFeasible (createsInBatch : ℕ) : OpKind → Bool
  | .create => state.aliveCount + createsInBatch < a.maxAlive
  | .update | .extend | .delete => ownedAvailable a state
  | .transfer => ownedAvailable a state && 2 ≤ a.signerCount
  | .expire => state.expired ≠ []

def feasible (createsInBatch : ℕ) : List (OpKind × UInt32) :=
  a.weights.filter fun w => 0 < w.2 && isFeasible a state createsInBatch w.1

/-- The kind in whose share of the weights the roll falls. -/
def rollKind : List (OpKind × UInt32) → UInt32 → Option OpKind
  | [], _ => none
  | (kind, weight) :: rest, roll => if roll < weight then some kind else rollKind rest (roll - weight)

def pickOpKind (createsInBatch : ℕ) : Random (Option OpKind) :=
  if state.expired ≠ [] then pure (some .expire)
  else if feasible a state createsInBatch = [] then pure none
  else do
    let total := ((feasible a state createsInBatch).map (·.2)).sum
    let roll ← randomRange 0 total.toNat
    return rollKind (feasible a state createsInBatch) (UInt32.ofNat roll)

/-- The keys of the signer's entities that no batch works on. -/
def candidates : List B256 :=
  (state.alive.entries.filter fun e => e.2.ownerIdx == a.signerIdx && !e.2.pending).map (·.1)

def pickOwnedAlive : Random (Option B256) := choose (candidates a state)

def buildCreate : Random PlannedOp := do
  let lifespan ← randomRange 30 300
  let expiresAt := (a.currentBlock + UInt64.ofNat lifespan).toUInt32
  let size ← randomRange 64 512
  let payload ← randomPayload size
  let contentType ← randomContentType
  return ⟨.create, .create (UInt32.ofNat lifespan) payload contentType [], none, some expiresAt, none⟩

def buildUpdate (key : B256) : Random PlannedOp := do
  let size ← randomRange 64 512
  let payload ← randomPayload size
  let contentType ← randomContentType
  return ⟨.update, .update key payload contentType [], some key, none, none⟩

def buildExtend (key : B256) (entity : AliveEntity) : Random PlannedOp := do
  let bump ← randomRange 50 400
  let newExpiresAt :=
    (max (a.currentBlock + UInt64.ofNat bump) (entity.expiresAt.toUInt64 + 1)).toUInt32
  let btl := (newExpiresAt.toUInt64 - a.currentBlock).toUInt32
  return ⟨.extend, .extend key btl, some key, some newExpiresAt, none⟩

/-- The address of the new owner is filled in when the batch is sent. -/
def buildTransfer (key : B256) : Random PlannedOp := do
  let drawn ← randomRange 0 a.signerCount
  let newIdx := if drawn = a.signerIdx then (drawn + 1) % a.signerCount else drawn
  return ⟨.transfer, .transfer key 0, some key, none, some newIdx⟩

def buildDelete (key : B256) : PlannedOp := ⟨.delete, .delete key, some key, none, none⟩

/-- `expired.pop()` goes to `expired_pending` at once. -/
def buildExpire : Option PlannedOp × State :=
  match state.expired.getLast? with
  | none => (none, state)
  | some key =>
    (some ⟨.expire, .expire key, none, none, none⟩,
      { state with
        expired := state.expired.dropLast
        expiredPending := state.expiredPending ++ [key] })

/-- An operation on one of the signer's entities. -/
def onOwned (build : B256 → Random (Option PlannedOp)) : Random (Option PlannedOp × State) := do
  match ← pickOwnedAlive a state with
  | none => return (none, state)
  | some key => return (← build key, state)

def buildOp : OpKind → Random (Option PlannedOp × State)
  | .create => do return (some (← buildCreate a), state)
  | .update => onOwned a state fun key => some <$> buildUpdate key
  | .extend => onOwned a state fun key =>
    match state.alive.lookup key with
    | none => pure none
    | some entity => some <$> buildExtend a key entity
  | .transfer => onOwned a state fun key => some <$> buildTransfer a key
  | .delete => onOwned a state fun key => pure (some (buildDelete key))
  | .expire => pure (buildExpire state)

/-- The loop of `build_batch`, with room for `room` more. Where no kind is picked, `?` leaves the
    function with what the loop has done to the state so far. -/
def buildLoop : ℕ → ℕ → List PlannedOp → State → Random (Option (List PlannedOp) × State)
  | 0, _, ops, state => pure (some ops, state)
  | room + 1, createsInBatch, ops, state => do
    match ← pickOpKind a state createsInBatch with
    | none => return (none, state)
    | some kind =>
      match ← buildOp a state kind with
      | (none, state) => return (some ops, state)
      | (some planned, state) =>
        buildLoop room (if planned.kind = .create then createsInBatch + 1 else createsInBatch)
          (ops ++ [planned]) state

end Building

def markPending (state : State) (ops : List PlannedOp) : State :=
  ops.foldl (fun s op => s.modify op.target fun e => { e with pending := true }) state

def recordAllSent (state : State) (ops : List PlannedOp) : State :=
  ops.foldl (fun s op => s.recordSent op.kind) state

def buildBatch (a : BatchArgs) (state : State) : Random (Option BatchPlan × State) := do
  let targetSize ← randomRange 1 (max a.maxOpsPerTx 1 + 1)
  match ← buildLoop a targetSize 0 [] state with
  | (none, state) => return (none, state)
  | (some ops, state) =>
    if ops = [] then return (none, state)
    else return (some ⟨a.signerIdx, ops⟩, recordAllSent (markPending state ops) ops)

section Receipts

/-- The first of a key, if there is one. -/
def State.releasePending (s : State) (key : B256) : State :=
  { s with expiredPending := s.expiredPending.erase key }

/-- The logs that decode, of created entities. -/
def createKeys (logs : List (Option EntityOperation)) : List B256 :=
  ((logs.filterMap id).filter fun ev => ev.operationType == opCreate).map (·.entityKey)

/-- The `match` of `apply_success`, with the keys of created entities that are left. -/
def confirm (senderIdx : ℕ) (s : State) (keys : List B256) (op : PlannedOp) : State × List B256 :=
  match op.kind with
  | .create =>
    match keys with
    | [] => (s, [])
    | key :: keys =>
      ({ s with alive := s.alive.insert key ⟨senderIdx, op.newExpiresAt.getD 0, false⟩ }, keys)
  | .update => (s.modify op.target fun e => { e with pending := false }, keys)
  | .extend =>
    (s.modify op.target fun e =>
      { e with expiresAt := op.newExpiresAt.getD e.expiresAt, pending := false }, keys)
  | .transfer =>
    match op.newOwnerIdx with
    | none => (s, keys)
    | some newIdx =>
      (s.modify op.target fun e => { e with ownerIdx := newIdx, pending := false }, keys)
  | .delete | .expire =>
    match op.target with
    | some key => ({ s with alive := s.alive.erase key }, keys)
    | none => (s.releasePending op.op.entityKey, keys)

/-- One round of `apply_success`. -/
def confirmOp (senderIdx : ℕ) (acc : State × List B256) (op : PlannedOp) : State × List B256 :=
  ((confirm senderIdx acc.1 acc.2 op).1.recordConfirmed op.kind,
    (confirm senderIdx acc.1 acc.2 op).2)

def applySuccess (state : State) (planned : List PlannedOp) (logs : List (Option EntityOperation))
    (senderIdx : ℕ) : State :=
  (planned.foldl (confirmOp senderIdx) (state, createKeys logs)).1

/-- One round of `apply_failure`. -/
def failOp (s : State) (op : PlannedOp) : State :=
  let s := s.modify op.target fun e => { e with pending := false }
  let s :=
    if op.kind = .expire ∧ op.op.entityKey ∈ s.expiredPending then
      { s.releasePending op.op.entityKey with expired := s.expired ++ [op.op.entityKey] }
    else s
  s.recordFailed op.kind

def applyFailure (state : State) (planned : List PlannedOp) : State := planned.foldl failOp state

end Receipts

end Arkiv.Simulate
