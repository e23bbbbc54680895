import Mathlib
import Arkiv.DevChain.Host
import Arkiv.Registry.Attributes
import Arkiv.Registry.Scope

/-!
# Namespaces of accounts and slots

Pair accounts, index accounts and the five families of system slots are named by
digests of unframed texts. The names in them come back from the texts, because
annotation keys have no zero byte in front of the separator, and the families
have different tags or lengths.

## Main definitions

- `AnnotationKey` — a built-in key or a name that the precompile accepts
- `ToldApart` — no two names share an account or a slot
- `namespaces_separated` — where the digests do not collide, names are separated
-/

namespace Arkiv

open ByteString

def builtInKeys : List Bytes :=
  [annotAll, annotCreator, annotCreatedAtBlock, annotOwner, annotKey, annotExpiration,
    annotContentType]

/-- What an entity's annotations are keyed by. -/
inductive AnnotationKey : Bytes → Prop
  | builtIn {k : Bytes} (h : k ∈ builtInKeys) : AnnotationKey k
  | user {name : B256} (h : validateIdent32 name = .ok ()) : AnnotationKey (ident32ToBytes name)

/-- The built-in keys start with a dollar sign and have no zero byte. -/
theorem builtInKeys_spec : ∀ k ∈ builtInKeys, (∃ rest, k = 0x24 :: rest) ∧ (0 : UInt8) ∉ k := by
  intro k hk
  simp only [builtInKeys, List.mem_cons, List.not_mem_nil, or_false] at hk
  obtain rfl | rfl | rfl | rfl | rfl | rfl | rfl := hk <;> exact ⟨⟨_, rfl⟩, by decide⟩

theorem AnnotationKey.zero_notMem {k : Bytes} (h : AnnotationKey k) : (0 : UInt8) ∉ k := by
  cases h with
  | builtIn h => exact (builtInKeys_spec k h).2
  | user h => exact (userKey_of_validateIdent32 h).zero

/-- Accepted names start with a letter. -/
theorem ident32ToBytes_ne_builtIn {name : B256} (h : validateIdent32 name = .ok ()) {k : Bytes}
    (hk : k ∈ builtInKeys) : ident32ToBytes name ≠ k := by
  obtain ⟨⟨rest, rfl⟩, -⟩ := builtInKeys_spec k hk
  exact (userKey_of_validateIdent32 h).ne_builtIn

section Families

variable [Keccak]

theorem SlotName.slot_entityCount : SlotName.entityCount.slot = slotEntityCount := rfl

theorem SlotName.slot_idToAddr (i : UInt64) : (SlotName.idToAddr i).slot = slotIdToAddr i := rfl

theorem SlotName.slot_addrToId (a : Address) : (SlotName.addrToId a).slot = slotAddrToId a := rfl

theorem SlotName.slot_nonces (caller : Address) :
    (SlotName.nonces caller).slot = slotNonces caller := rfl

theorem SlotName.slot_payloadReferenceNonce (caller : Address) (nonce : B256) :
    (SlotName.payloadReferenceNonce caller nonce).slot =
      slotPayloadReferenceNonce caller nonce := rfl

/-- No two names share an account or a slot, among those whose preimages are in the sets. -/
structure ToldApart (accounts slots : Set Bytes) : Prop where
  pair : ∀ k k' v v', AnnotationKey k → AnnotationKey k' → pairPreimage k v ∈ accounts →
    pairPreimage k' v' ∈ accounts → pairAddress k v = pairAddress k' v' → k = k' ∧ v = v'
  pair_index : ∀ k k' v, pairPreimage k v ∈ accounts → indexPreimage k' ∈ accounts →
    pairAddress k v ≠ indexAddress k'
  index : ∀ k k', indexPreimage k ∈ accounts → indexPreimage k' ∈ accounts →
    indexAddress k = indexAddress k' → k = k'
  slot : ∀ m n : SlotName, m.preimage ∈ slots → n.preimage ∈ slots → m.slot = n.slot → m = n
  user_pair : ∀ name k v v', validateIdent32 name = .ok () → k ∈ builtInKeys →
    pairPreimage (ident32ToBytes name) v ∈ accounts → pairPreimage k v' ∈ accounts →
    pairAddress (ident32ToBytes name) v ≠ pairAddress k v'
  user_index : ∀ name k, validateIdent32 name = .ok () → k ∈ builtInKeys →
    indexPreimage (ident32ToBytes name) ∈ accounts → indexPreimage k ∈ accounts →
    indexAddress (ident32ToBytes name) ≠ indexAddress k

/-- **Namespace separation**: where the digests of slots and the addresses cut from digests are
    injective, pair accounts, index accounts and system slots are told apart by their names. -/
theorem namespaces_separated {accounts slots : Set Bytes}
    (haccounts : Set.InjOn derivedAddress accounts) (hslots : Set.InjOn keccak256 slots) :
    ToldApart accounts slots := by
  have hpair : ∀ k k' v v', AnnotationKey k → AnnotationKey k' → pairPreimage k v ∈ accounts →
      pairPreimage k' v' ∈ accounts → pairAddress k v = pairAddress k' v' → k = k' ∧ v = v' :=
    fun k k' v v' hk hk' hm hm' heq =>
      pairPreimage_inj hk.zero_notMem hk'.zero_notMem (haccounts hm hm' heq)
  have hindex : ∀ k k', indexPreimage k ∈ accounts → indexPreimage k' ∈ accounts →
      indexAddress k = indexAddress k' → k = k' :=
    fun k k' hm hm' heq => indexPreimage_inj (haccounts hm hm' heq)
  refine ⟨hpair, fun k k' v hm hm' heq => ?_, hindex, fun m n hm hn heq => ?_,
    fun name k v v' hname hk hm hm' heq => ?_, fun name k hname hk hm hm' heq => ?_⟩
  · exact pairPreimage_ne_indexPreimage k v k' (haccounts hm hm' heq)
  · exact SlotName.preimage_injective (hslots hm hn heq)
  · have hkeys := hpair _ _ v v' (.user hname) (.builtIn hk) hm hm' heq
    exact ident32ToBytes_ne_builtIn hname hk hkeys.1
  · exact ident32ToBytes_ne_builtIn hname hk (hindex _ _ hm hm' heq)

end Families

end Arkiv

namespace Arkiv.DevChain

open ByteString

/-- The accounts of a user attribute `owner` and of the built-in one, with one value. -/
def ownerAccounts : List Bytes :=
  [pairPreimage (ascii "owner") [1], pairPreimage annotOwner [1], indexPreimage (ascii "owner"),
    indexPreimage annotOwner]

def ownerSlots : List Bytes :=
  [entityCountPreimage, noncesPreimage devCaller, addrToIdPreimage devCaller]

theorem namespaces_separated_owner :
    pairAddress (ascii "owner") [1] ≠ pairAddress annotOwner [1] ∧
      slotNonces devCaller ≠ slotAddrToId devCaller := by
  have haccounts : Set.InjOn derivedAddress {p | p ∈ ownerAccounts} :=
    List.inj_on_of_nodup_map (by decide +kernel)
  have hslots : Set.InjOn keccak256 {p | p ∈ ownerSlots} :=
    List.inj_on_of_nodup_map (by decide +kernel)
  have hsep := namespaces_separated haccounts hslots
  have hname : ident32ToBytes (identOf "owner") = ascii "owner" := by decide +kernel
  constructor
  · have hne := hsep.user_pair (identOf "owner") annotOwner [1] [1] (by decide +kernel)
      (by simp [builtInKeys])
    rw [hname] at hne
    exact hne (by simp [ownerAccounts]) (by simp [ownerAccounts])
  · intro heq
    have hname := hsep.slot (.nonces devCaller) (.addrToId devCaller)
      (by simp [ownerSlots, SlotName.preimage]) (by simp [ownerSlots, SlotName.preimage]) heq
    cases hname

end Arkiv.DevChain
