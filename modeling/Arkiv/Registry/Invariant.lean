import Mathlib
import Arkiv.Registry.Attributes
import Arkiv.Registry.Effect

/-!
# The registry invariant

What holds of the entity accounts and the minting nonces after every run in
which derived names do not collide. A live entity has a key that one create
minted and a well-formed record; accounts of keys without a live entity are
empty.

## Main definitions

- `LiveAt`, `Live` — the record that an account's code decodes to
- `OpTransition.Mints`, `OpTransition.Removes`, `AliveIn` — lives in the history
- `Sound` — an accepted operation inside the scope
- `Registered` — the invariant
- `Change` — what an accepted operation does to the registry
-/

namespace Arkiv

open ByteString

/-- The code of the account decodes to the record. -/
def LiveAt (w : World) (a : Address) (e : EntityRlp) : Prop :=
  EntityRlp.decodeFromCode (w.code a) = .ok e

theorem LiveAt.unique {w : World} {a : Address} {e e' : EntityRlp} (h : LiveAt w a e)
    (h' : LiveAt w a e') : e = e' := Except.ok.inj (h.symm.trans h')

theorem LiveAt.congr {w w' : World} {a : Address} (h : w'.code a = w.code a) (e : EntityRlp) :
    LiveAt w' a e ↔ LiveAt w a e := by
  rw [LiveAt, h, LiveAt]

theorem not_liveAt_of_nil {w : World} {a : Address} (h : w.code a = []) (e : EntityRlp) :
    ¬LiveAt w a e := by
  rw [LiveAt, h, EntityRlp.decodeFromCode_nil]
  simp

/-- Only accounts of entity keys hold code that decodes as an entity. -/
def OnlyEntities [Keccak] (S : Scope) (chainId : UInt64) (w : World) : Prop :=
  ∀ a e, LiveAt w a e → S.EntityAt chainId a

/-- A live entity: a record at the account of an entity key. -/
def Live [Keccak] (S : Scope) (chainId : UInt64) (w : World) (a : Address) (e : EntityRlp) : Prop :=
  S.EntityAt chainId a ∧ LiveAt w a e

variable [Host]

namespace OpTransition

def IsCreate (x : OpTransition) : Prop := x.label.op.operationType = opCreate

instance (x : OpTransition) : Decidable x.IsCreate :=
  inferInstanceAs (Decidable (x.label.op.operationType = opCreate))

/-- The account that the operation creates or acts on. -/
def target (x : OpTransition) : Address :=
  if x.IsCreate then entityAddress (mintedKey x.pre x.label.ctx)
  else entityAddress x.label.op.entityKey

def Mints (x : OpTransition) (a : Address) : Prop := x.IsCreate ∧ x.target = a

def Removes (x : OpTransition) (a : Address) : Prop :=
  (x.label.op.operationType = opDelete ∨ x.label.op.operationType = opExpire) ∧ x.target = a

theorem Removes.not_isCreate {x : OpTransition} {a : Address} (h : x.Removes a) : ¬x.IsCreate := by
  intro hc
  rcases h.1 with h | h <;> rw [IsCreate, h] at hc <;> exact absurd hc (by decide)

end OpTransition

/-- Created, and neither deleted nor expired since. -/
def AliveIn (h : History) (a : Address) : Prop :=
  ∃ h₁ x h₂, h = h₁ ++ x :: h₂ ∧ x.Mints a ∧ ∀ y ∈ h₂, ¬y.Removes a

theorem aliveIn_snoc {h : History} {x : OpTransition} {a : Address} :
    AliveIn (h ++ [x]) a ↔ x.Mints a ∨ AliveIn h a ∧ ¬x.Removes a := by
  constructor
  · rintro ⟨h₁, y, h₂, heq, hm, hr⟩
    rcases Runs.snoc_eq_append_cons.mp heq with ⟨-, rfl, -⟩ | ⟨h₃, rfl, rfl⟩
    · exact .inl hm
    · exact .inr ⟨⟨h₁, y, h₃, rfl, hm, fun u hu => hr u (by simp [hu])⟩, hr x (by simp)⟩
  · rintro (hm | ⟨⟨h₁, y, h₂, rfl, hm, hr⟩, hx⟩)
    · exact ⟨h, x, [], rfl, hm, by simp⟩
    · refine ⟨h₁, y, h₂ ++ [x], by simp, hm, fun u hu => ?_⟩
      rcases List.mem_append.mp hu with hu | hu
      · exact hr u hu
      · rw [List.mem_singleton.mp hu]
        exact hx

theorem not_aliveIn_nil (a : Address) : ¬AliveIn [] a := by
  rintro ⟨h₁, x, h₂, heq, -⟩
  simp at heq

/-- How many creates a history holds. -/
def creates (h : History) : ℕ := h.countP fun x => x.IsCreate

omit [Host] in
theorem creates_snoc (h : History) (x : OpTransition) :
    creates (h ++ [x]) = creates h + if x.IsCreate then 1 else 0 := by
  simp [creates, List.countP_append, List.countP_singleton]

/-- The annotations that an operation newly posts, and the one under the caller's key that a
    deletion removes. -/
inductive Posts (w : World) (c : OpCall) : Annotation → Prop where
  | create {attributes : List Attribute} {auth : PayloadReferenceAuth} {x : Annotation}
      (htype : c.op.operationType = opCreate)
      (hconv : convertAttributes c.op.attributes = .ok attributes)
      (hauth : validatePayloadReference c.op.payload c.ctx.chainId = .ok auth)
      (hx : x ∈ (createdRecord w c attributes auth).annotations) : Posts w c x
  | update {attributes : List Attribute} {auth : PayloadReferenceAuth} {x : Annotation}
      (htype : c.op.operationType = opUpdate)
      (hconv : convertAttributes c.op.attributes = .ok attributes)
      (hauth : validatePayloadReference c.op.payload c.ctx.chainId = .ok auth)
      (hx : x ∈ updatableAnnotations auth.contentType attributes) : Posts w c x
  | extend (htype : c.op.operationType = opExtend) :
      Posts w c ⟨annotExpiration, u64Bytes (satAdd c.ctx.currentBlock c.op.btl.toUInt64), true⟩
  | transfer (htype : c.op.operationType = opTransfer) :
      Posts w c ⟨annotOwner, addressBytes c.op.newOwner, false⟩
  | remove (htype : c.op.operationType = opDelete ∨ c.op.operationType = opExpire) :
      Posts w c ⟨annotKey, b256Bytes c.op.entityKey, false⟩

/-- The accounts that an operation derives are in the scope: the new key, the postings of the
    record that it loads and the postings that it makes. -/
structure Scope.AccountsCovered (S : Scope) (w : World) (c : OpCall) : Prop where
  mint : c.op.operationType = opCreate →
    entityKeyPreimage c.ctx.chainId c.ctx.caller (readNonce w c.ctx.caller) ∈ S.accounts
  record : c.op.operationType ≠ opCreate → ∀ e, LiveAt w (entityAddress c.op.entityKey) e →
    S.HasAccounts e.annotations
  posts : ∀ x, Posts w c x →
    pairPreimage x.key x.value ∈ S.accounts ∧ indexPreimage x.key ∈ S.accounts

/-- An accepted operation inside the scope: what it touches does not collide. -/
structure Sound (S : Scope) (x : OpTransition) : Prop where
  slots : S.SlotsCovered x.pre x.label
  accounts : S.AccountsCovered x.pre x.label

/-- What is known of the record of a live entity. -/
structure Recorded (S : Scope) (chainId : UInt64) (w : World) (a : Address) (e : EntityRlp) :
    Prop where
  wellFormed : e.WellFormed
  key : ∃ n, e.key = deriveEntityKey chainId e.creator n ∧
    entityKeyPreimage chainId e.creator n ∈ S.accounts
  address : a = entityAddress e.key
  covers : S.CoversAll e.annotations
  id_mem : .idToAddr (readEntityId w a) ∈ S.slots
  addr_mem : .addrToId a ∈ S.slots

/-- What is known of a create of the past: its nonce is used up. -/
structure Minting (S : Scope) (chainId : UInt64) (w : World) (x : OpTransition) : Prop where
  mem : entityKeyPreimage chainId x.label.ctx.caller (readNonce x.pre x.label.ctx.caller) ∈
    S.accounts
  chain : x.label.ctx.chainId = chainId
  nonces : .nonces x.label.ctx.caller ∈ S.slots
  nonce_lt : (readNonce x.pre x.label.ctx.caller).toNat < (readNonce w x.label.ctx.caller).toNat

/-- **The registry invariant.** -/
structure Registered (S : Scope) (chainId : UInt64) (w : World) (h : History) : Prop where
  unminted : ∀ owner n, entityKeyPreimage chainId owner n ∈ S.accounts →
    (.nonces owner ∈ S.slots → (readNonce w owner).toNat ≤ n.toNat) →
    w.code (entityAddress (deriveEntityKey chainId owner n)) = []
  recorded : ∀ a e, Live S chainId w a e → Recorded S chainId w a e
  vacant : ∀ a, S.EntityAt chainId a → (∀ e, ¬LiveAt w a e) → w.code a = []
  alive : ∀ a, S.EntityAt chainId a → ((∃ e, LiveAt w a e) ↔ AliveIn h a)
  minted : ∀ x ∈ h, x.IsCreate → Minting S chainId w x
  hosted : w.nonce systemAccountAddress = 0 → ∀ s, w.slot s = 0

/-- A create among the accounts and slots of the scope. -/
structure MintChange (S : Scope) (chainId : UInt64) (w w' : World) (ctx : CallContext)
    (e : EntityRlp) : Prop where
  chain : ctx.chainId = chainId
  mem : entityKeyPreimage chainId ctx.caller (readNonce w ctx.caller) ∈ S.accounts
  nonces_mem : .nonces ctx.caller ∈ S.slots
  id_mem : .idToAddr (entityCount w) ∈ S.slots
  addr_mem : .addrToId (entityAddress e.key) ∈ S.slots
  nonce_lt : (readNonce w ctx.caller).toNat + 1 < 2 ^ 32
  key : e.key = mintedKey w ctx
  creator : e.creator = ctx.caller
  wellFormed : e.WellFormed
  covers : S.CoversAll e.annotations
  code : ∀ b, S.EntityAt chainId b →
    w'.code b = if b = entityAddress e.key then e.encodeAsCode else w.code b
  count : w'.slot slotEntityCount = u64ToStorage (entityCount w + 1)
  nonces : ∀ o, .nonces o ∈ S.slots → w'.slot (slotNonces o) =
    if o = ctx.caller then u32ToStorage (readNonce w o + 1) else w.slot (slotNonces o)
  ids : ∀ i, .idToAddr i ∈ S.slots → w'.slot (slotIdToAddr i) =
    if i = entityCount w then addressToStorage (entityAddress e.key) else w.slot (slotIdToAddr i)
  addrs : ∀ b, .addrToId b ∈ S.slots → w'.slot (slotAddrToId b) =
    if b = entityAddress e.key then u64ToStorage (entityCount w) else w.slot (slotAddrToId b)

/-- An update, extension or transfer among the accounts and slots of the scope. -/
structure RewriteChange (S : Scope) (chainId : UInt64) (w w' : World) (a : Address)
    (e e' : EntityRlp) : Prop where
  live : Live S chainId w a e
  key : e'.key = e.key
  creator : e'.creator = e.creator
  created : e'.createdAtBlock = e.createdAtBlock
  wellFormed : e'.WellFormed
  covers : S.CoversAll e'.annotations
  code : ∀ b, S.EntityAt chainId b → w'.code b = if b = a then e'.encodeAsCode else w.code b
  slot : ∀ n ∈ S.slots, (∀ o m, n ≠ .payloadReferenceNonce o m) → w'.slot n.slot = w.slot n.slot

/-- A deletion or expiry among the accounts and slots of the scope. -/
structure RemoveChange (S : Scope) (chainId : UInt64) (w w' : World) (a : Address)
    (e : EntityRlp) : Prop where
  live : Live S chainId w a e
  code : ∀ b, S.EntityAt chainId b → w'.code b = if b = a then [] else w.code b
  slot : ∀ n ∈ S.slots, w'.slot n.slot =
    if n = .idToAddr (readEntityId w a) ∨ n = .addrToId a then 0 else w.slot n.slot

/-- An operation on an account that is not one of an entity key: the entity accounts stay, and of
    the slots only the map entries of that account may change. -/
structure OutsideChange (S : Scope) (chainId : UInt64) (w w' : World) (a : Address) : Prop where
  outside : ¬S.EntityAt chainId a
  code : ∀ b, S.EntityAt chainId b → w'.code b = w.code b
  slot : ∀ n ∈ S.slots, (∀ o m, n ≠ .payloadReferenceNonce o m) → n ≠ .addrToId a →
    n ≠ .idToAddr (readEntityId w a) → w'.slot n.slot = w.slot n.slot

/-- The ways in which an accepted operation changes the registry. -/
inductive Change (S : Scope) (chainId : UInt64) (x : OpTransition) : Prop where
  | mint (e : EntityRlp) (hx : x.IsCreate)
      (hchange : MintChange S chainId x.pre x.post x.label.ctx e)
  | rewrite (e e' : EntityRlp) (hx : ¬x.IsCreate) (hkeep : ∀ a, ¬x.Removes a)
      (hchange : RewriteChange S chainId x.pre x.post x.target e e')
  | remove (e : EntityRlp) (hx : x.Removes x.target)
      (hchange : RemoveChange S chainId x.pre x.post x.target e)
  | outside (e : EntityRlp) (hx : ¬x.IsCreate) (hload : LiveAt x.pre x.target e)
      (hchange : OutsideChange S chainId x.pre x.post x.target)

end Arkiv
