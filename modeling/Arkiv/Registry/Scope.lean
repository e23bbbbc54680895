import Mathlib
import Arkiv.Model.EntityDb
import Arkiv.Model.Precompile

/-!
# Separation of the derived addresses and slots

Keccak cannot be injective, so the absence of collisions is stated on a scope: a
set of preimages on which the digests are distinct. Everything else is a fact
about the preimages, which differ by family and name what they were built from.

## Main definitions

- `SlotName` — the five families of system slots by name
- `Scope` — preimages without collisions, and the addresses of everybody else
- `Scope.EntityAt` — the address of an entity key in the scope
- `Scope.Covers` — an annotation whose pair and index accounts are in the scope
-/

namespace Arkiv

open ByteString

/-- The slots of the system account, by what they hold. -/
inductive SlotName where
  | entityCount
  | idToAddr (entityId : UInt64)
  | addrToId (entityAddr : Address)
  | nonces (caller : Address)
  | payloadReferenceNonce (caller : Address) (nonce : B256)
deriving DecidableEq

def SlotName.preimage : SlotName → Bytes
  | entityCount => entityCountPreimage
  | idToAddr i => idToAddrPreimage i
  | addrToId a => addrToIdPreimage a
  | nonces caller => noncesPreimage caller
  | payloadReferenceNonce caller nonce => payloadReferenceNoncePreimage caller nonce

def SlotName.slot [Keccak] (name : SlotName) : B256 := keccak256 name.preimage

/-- A set of account preimages and a set of slots on which no digests collide, with the addresses
    at which somebody else's code may stand. -/
structure Scope [Keccak] where
  accounts : Set Bytes
  slots : Set SlotName
  foreign : Set Address
  accounts_inj : Set.InjOn derivedAddress accounts
  slots_inj : Set.InjOn keccak256 (SlotName.preimage '' slots)
  foreign_not_derived : ∀ p ∈ accounts, derivedAddress p ∉ foreign
  foreign_not_system : systemAccountAddress ∉ foreign
  count_mem : .entityCount ∈ slots

theorem system_not_mem_nil : systemAccountAddress ∉ ([] : List Address) := List.not_mem_nil

/-- A finite scope, checked by computing the digests. -/
def Scope.ofLists [Keccak] (accounts : List Bytes) (slots : List SlotName) (foreign : List Address)
    (haccounts : (accounts.map derivedAddress).Nodup) (hslots : (slots.map SlotName.slot).Nodup)
    (hforeign : ∀ p ∈ accounts, derivedAddress p ∉ foreign)
    (hsystem : systemAccountAddress ∉ foreign) (hcount : .entityCount ∈ slots) : Scope where
  accounts := {p | p ∈ accounts}
  slots := {n | n ∈ slots}
  foreign := {a | a ∈ foreign}
  accounts_inj := List.inj_on_of_nodup_map haccounts
  slots_inj := by
    rintro _ ⟨m, hm, rfl⟩ _ ⟨n, hn, rfl⟩ heq
    rw [List.inj_on_of_nodup_map hslots hm hn heq]
  foreign_not_derived := hforeign
  foreign_not_system := hsystem
  count_mem := hcount

theorem append_zero_inj {k k' v v' : Bytes} (hk : (0 : UInt8) ∉ k) (hk' : (0 : UInt8) ∉ k')
    (h : k ++ 0 :: v = k' ++ 0 :: v') : k = k' ∧ v = v' := by
  induction k generalizing k' with
  | nil =>
    cases k' with
    | nil => simpa using h
    | cons b k' =>
      simp only [List.nil_append, List.cons_append, List.cons.injEq] at h
      simp [← h.1] at hk'
  | cons b k ih =>
    cases k' with
    | nil =>
      simp only [List.nil_append, List.cons_append, List.cons.injEq] at h
      simp [h.1] at hk
    | cons c k' =>
      simp only [List.cons_append, List.cons.injEq] at h
      obtain ⟨hkk, hvv⟩ := ih (fun hm => hk (List.mem_cons_of_mem _ hm))
        (fun hm => hk' (List.mem_cons_of_mem _ hm)) h.2
      exact ⟨by rw [h.1, hkk], hvv⟩

theorem pairPreimage_inj {k k' v v' : Bytes} (hk : (0 : UInt8) ∉ k) (hk' : (0 : UInt8) ∉ k')
    (h : pairPreimage k v = pairPreimage k' v') : k = k' ∧ v = v' := by
  simp only [pairPreimage, List.append_assoc] at h
  exact append_zero_inj hk hk' (List.append_cancel_left h)

theorem indexPreimage_inj {k k' : Bytes} (h : indexPreimage k = indexPreimage k') : k = k' :=
  List.append_cancel_left h

theorem pairPreimage_ne_indexPreimage (k v k' : Bytes) : pairPreimage k v ≠ indexPreimage k' := by
  intro h
  have hp : ascii "arkiv.pair" = [0x61, 0x72, 0x6b, 0x69, 0x76, 0x2e, 0x70, 0x61, 0x69, 0x72] := by
    decide
  have hi : ascii "arkiv.index" =
      [0x61, 0x72, 0x6b, 0x69, 0x76, 0x2e, 0x69, 0x6e, 0x64, 0x65, 0x78] := by decide
  simp [pairPreimage, indexPreimage, hp, hi] at h

/-- A chain ID has 64 of 256 bits, so a key's preimage starts with a zero byte. -/
theorem entityKeyPreimage_eq_cons (chainId : UInt64) (owner : Address) (nonce : UInt32) :
    ∃ rest, entityKeyPreimage chainId owner nonce = 0 :: rest := by
  have hc := chainId.toNat_lt
  have h0 : chainId.toNat / 256 ^ 31 = 0 := Nat.div_eq_of_lt (by omega)
  refine ⟨be 31 chainId.toNat ++ (addressBytes arkivAddress ++ (addressBytes owner ++
    u32Bytes nonce)), ?_⟩
  simp only [entityKeyPreimage, be_succ_eq_cons 31, h0, List.cons_append, List.append_assoc]
  rfl

theorem entityKeyPreimage_ne_pairPreimage (chainId : UInt64) (owner : Address) (nonce : UInt32)
    (k v : Bytes) : entityKeyPreimage chainId owner nonce ≠ pairPreimage k v := by
  obtain ⟨rest, h⟩ := entityKeyPreimage_eq_cons chainId owner nonce
  have hp : ascii "arkiv.pair" = 0x61 :: ascii "rkiv.pair" := by decide
  simp [h, pairPreimage, hp]

theorem entityKeyPreimage_ne_indexPreimage (chainId : UInt64) (owner : Address) (nonce : UInt32)
    (k : Bytes) : entityKeyPreimage chainId owner nonce ≠ indexPreimage k := by
  obtain ⟨rest, h⟩ := entityKeyPreimage_eq_cons chainId owner nonce
  have hp : ascii "arkiv.index" = 0x61 :: ascii "rkiv.index" := by decide
  simp [h, indexPreimage, hp]

theorem entityKeyPreimage_inj {chainId : UInt64} {owner owner' : Address} {nonce nonce' : UInt32}
    (h : entityKeyPreimage chainId owner nonce = entityKeyPreimage chainId owner' nonce') :
    owner = owner' ∧ nonce = nonce' := by
  simp only [entityKeyPreimage, List.append_assoc] at h
  have h1 := List.append_cancel_left (List.append_cancel_left h)
  obtain ⟨ho, hn⟩ := List.append_inj h1 (by simp)
  exact ⟨addressBytes_inj.mp ho, u32Bytes_inj.mp hn⟩

/-- The families have preimages of different lengths, and each preimage shows what it names. -/
theorem SlotName.preimage_injective : Function.Injective SlotName.preimage := by
  have hcount : entityCountPreimage.length = 12 := by decide
  have hid (i : UInt64) : (idToAddrPreimage i).length = 18 := by
    have hp : (ascii "id_to_addr").length = 10 := by decide
    simp [idToAddrPreimage, hp]
  have haddr (a : Address) : (addrToIdPreimage a).length = 30 := by
    have hp : (ascii "addr_to_id").length = 10 := by decide
    simp [addrToIdPreimage, hp]
  have hnonce (a : Address) : (noncesPreimage a).length = 26 := by
    have hp : (ascii "nonces").length = 6 := by decide
    simp [noncesPreimage, hp]
  have href (a : Address) (n : B256) : (payloadReferenceNoncePreimage a n).length = 69 := by
    have hp : (ascii "payload_ref_nonce").length = 17 := by decide
    simp [payloadReferenceNoncePreimage, hp]
  intro m n h
  have hlen := congrArg List.length h
  cases m <;> cases n <;> simp only [preimage, hcount, hid, haddr, hnonce, href] at hlen h
  all_goals first | omega | skip
  · rfl
  · rw [u64Bytes_inj.mp (List.append_cancel_left h)]
  · rw [addressBytes_inj.mp (List.append_cancel_left h)]
  · rw [addressBytes_inj.mp (List.append_cancel_left h)]
  · simp only [payloadReferenceNoncePreimage, List.append_assoc] at h
    obtain ⟨ha, hn⟩ := List.append_inj (List.append_cancel_left h) (by simp)
    rw [addressBytes_inj.mp ha, b256Bytes_inj.mp hn]

namespace Scope

variable [Keccak] (S : Scope)

/-- The address of an entity key of the chain whose preimage is in the scope. -/
def EntityAt (chainId : UInt64) (a : Address) : Prop :=
  ∃ owner nonce, entityKeyPreimage chainId owner nonce ∈ S.accounts ∧
    a = entityAddress (deriveEntityKey chainId owner nonce)

/-- An annotation with a key free of zero bytes and with both accounts in the scope. -/
structure Covers (annotKey annotVal : Bytes) : Prop where
  key : (0 : UInt8) ∉ annotKey
  pair : pairPreimage annotKey annotVal ∈ S.accounts
  index : indexPreimage annotKey ∈ S.accounts

variable {S}

theorem EntityAt.ne_pairAddress {chainId : UInt64} {a : Address} {k v : Bytes}
    (ha : S.EntityAt chainId a) (h : pairPreimage k v ∈ S.accounts) : a ≠ pairAddress k v := by
  rintro heq
  obtain ⟨owner, nonce, hm, rfl⟩ := ha
  exact entityKeyPreimage_ne_pairPreimage chainId owner nonce k v (S.accounts_inj hm h heq)

theorem EntityAt.ne_indexAddress {chainId : UInt64} {a : Address} {k : Bytes}
    (ha : S.EntityAt chainId a) (h : indexPreimage k ∈ S.accounts) : a ≠ indexAddress k := by
  rintro heq
  obtain ⟨owner, nonce, hm, rfl⟩ := ha
  exact entityKeyPreimage_ne_indexPreimage chainId owner nonce k (S.accounts_inj hm h heq)

theorem EntityAt.not_foreign {chainId : UInt64} {a : Address} (ha : S.EntityAt chainId a) :
    a ∉ S.foreign := by
  obtain ⟨owner, nonce, hm, rfl⟩ := ha
  exact S.foreign_not_derived _ hm

/-- Keys of a scope with one address have one owner and one nonce. -/
theorem entityAddress_inj {chainId : UInt64} {owner owner' : Address} {nonce nonce' : UInt32}
    (h : entityKeyPreimage chainId owner nonce ∈ S.accounts)
    (h' : entityKeyPreimage chainId owner' nonce' ∈ S.accounts)
    (heq : entityAddress (deriveEntityKey chainId owner nonce) =
      entityAddress (deriveEntityKey chainId owner' nonce')) :
    owner = owner' ∧ nonce = nonce' :=
  entityKeyPreimage_inj (S.accounts_inj h h' heq)

theorem slot_inj {m n : SlotName} (hm : m ∈ S.slots) (hn : n ∈ S.slots) (h : m.slot = n.slot) :
    m = n :=
  SlotName.preimage_injective
    (S.slots_inj (Set.mem_image_of_mem _ hm) (Set.mem_image_of_mem _ hn) h)

end Scope

end Arkiv
