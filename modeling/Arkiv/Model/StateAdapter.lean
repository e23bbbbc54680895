import Mathlib
import Arkiv.Model.Primitives

/-!
# The world state and the state adapter

Accounts of the trie with the event log, and the six operations through which
entitydb and the precompile touch them. The operations themselves do not fail.

## Main definitions

- `Account`, `World` — the state of the chain
- `World.code`, `World.setCode`, `World.tombstoneCode`, `World.storage`,
  `World.setStorage`, `World.ensureAccountPersists` — the state adapter
- `World.slot` — a slot of the system account
-/

namespace Arkiv

open ByteString

/-- The event of an accepted operation. -/
structure EntityOperation where
  entityKey : B256
  operationType : UInt8
  owner : Address
  expiresAt : UInt32
  entityHash : B256
deriving DecidableEq, Repr

structure Account where
  nonce : UInt64
  balance : ℕ
  code : Bytes
  storage : B256 → B256

/-- An address that was never touched. -/
def Account.absent : Account := ⟨0, 0, [], fun _ => 0⟩

/-- Accounts, and the logs of the precompile so far, oldest first. -/
structure World where
  accounts : Address → Account
  logs : List EntityOperation

namespace World

/-- The chain before its first transaction. -/
def genesis : World := ⟨fun _ => Account.absent, []⟩

def modify (w : World) (addr : Address) (f : Account → Account) : World :=
  { w with accounts := Function.update w.accounts addr (f (w.accounts addr)) }

def code (w : World) (addr : Address) : Bytes := (w.accounts addr).code

/-- A fresh account gets nonce one, so that it is not pruned. -/
def ensureNonceAtLeastOne (acc : Account) : Account :=
  if acc.nonce = 0 then { acc with nonce := acc.nonce + 1 } else acc

def setCode (w : World) (addr : Address) (code : Bytes) : World :=
  w.modify addr fun acc => ensureNonceAtLeastOne { acc with code }

def tombstoneCode (w : World) (addr : Address) : World := w.setCode addr []

def storage (w : World) (addr : Address) (slot : B256) : B256 := (w.accounts addr).storage slot

def setStorage (w : World) (addr : Address) (slot value : B256) : World :=
  w.modify addr fun acc => { acc with storage := Function.update acc.storage slot value }

def ensureAccountPersists (w : World) (addr : Address) : World :=
  w.modify addr ensureNonceAtLeastOne

def balance (w : World) (addr : Address) : ℕ := (w.accounts addr).balance

def nonce (w : World) (addr : Address) : UInt64 := (w.accounts addr).nonce

/-- The balances of all accounts are replaced. -/
def setBalances (w : World) (balances : Address → ℕ) : World :=
  { w with accounts := fun a => { w.accounts a with balance := balances a } }

def setBalance (w : World) (addr : Address) (balance : ℕ) : World :=
  w.modify addr fun acc => { acc with balance }

def log (w : World) (event : EntityOperation) : World := { w with logs := w.logs ++ [event] }

/-- A slot of the system account. -/
def slot (w : World) (s : B256) : B256 := w.storage systemAccountAddress s

def setSlot (w : World) (s value : B256) : World := w.setStorage systemAccountAddress s value

variable (w : World) (a b : Address) (c : Bytes) (s t v : B256) (e : EntityOperation)

@[simp] theorem code_setCode_self : (w.setCode a c).code a = c := by
  simp only [setCode, modify, code, Function.update_self, ensureNonceAtLeastOne]
  split <;> rfl

@[simp] theorem code_setCode_of_ne (h : b ≠ a) : (w.setCode a c).code b = w.code b := by
  simp [setCode, modify, code, h]

theorem code_setCode : (w.setCode a c).code b = if b = a then c else w.code b := by
  by_cases h : b = a
  · subst h
    simp
  · simp [h]

@[simp] theorem slot_setCode : (w.setCode a c).slot s = w.slot s := by
  simp only [setCode, modify, slot, storage, ensureNonceAtLeastOne]
  by_cases h : systemAccountAddress = a
  · subst h
    simp only [Function.update_self]
    split <;> rfl
  · rw [Function.update_of_ne h]

@[simp] theorem logs_setCode : (w.setCode a c).logs = w.logs := rfl

@[simp] theorem code_setSlot : (w.setSlot s v).code a = w.code a := by
  simp only [setSlot, setStorage, modify, code]
  by_cases h : a = systemAccountAddress
  · subst h
    simp
  · rw [Function.update_of_ne h]

@[simp] theorem slot_setSlot_self : (w.setSlot s v).slot s = v := by
  simp [setSlot, setStorage, modify, slot, storage]

@[simp] theorem slot_setSlot_of_ne (h : t ≠ s) : (w.setSlot s v).slot t = w.slot t := by
  simp [setSlot, setStorage, modify, slot, storage, h]

theorem slot_setSlot : (w.setSlot s v).slot t = if t = s then v else w.slot t := by
  by_cases h : t = s
  · subst h
    simp
  · simp [h]

theorem slot_setSlot_eq : (w.setSlot s v).slot = Function.update w.slot s v := by
  funext t
  rw [slot_setSlot, Function.update_apply]

@[simp] theorem nonce_setSlot : (w.setSlot s v).nonce a = w.nonce a := by
  simp only [setSlot, setStorage, modify, nonce]
  by_cases h : a = systemAccountAddress
  · subst h
    simp
  · rw [Function.update_of_ne h]

@[simp] theorem logs_setSlot : (w.setSlot s v).logs = w.logs := rfl

@[simp] theorem code_ensureAccountPersists : (w.ensureAccountPersists b).code a = w.code a := by
  simp only [ensureAccountPersists, modify, code, ensureNonceAtLeastOne]
  by_cases h : a = b
  · subst h
    simp only [Function.update_self]
    split <;> rfl
  · rw [Function.update_of_ne h]

@[simp] theorem slot_ensureAccountPersists : (w.ensureAccountPersists b).slot s = w.slot s := by
  simp only [ensureAccountPersists, modify, slot, storage, ensureNonceAtLeastOne]
  by_cases h : systemAccountAddress = b
  · subst h
    simp only [Function.update_self]
    split <;> rfl
  · rw [Function.update_of_ne h]

theorem slot_ensureAccountPersists_eq : (w.ensureAccountPersists b).slot = w.slot :=
  funext fun _ => slot_ensureAccountPersists _ _ _

@[simp] theorem logs_ensureAccountPersists : (w.ensureAccountPersists b).logs = w.logs := rfl

@[simp] theorem code_setBalances (f : Address → ℕ) : (w.setBalances f).code a = w.code a := rfl

@[simp] theorem slot_setBalances (f : Address → ℕ) : (w.setBalances f).slot s = w.slot s := rfl

@[simp] theorem logs_setBalances (f : Address → ℕ) : (w.setBalances f).logs = w.logs := rfl

@[simp] theorem code_setBalance (n : ℕ) : (w.setBalance b n).code a = w.code a := by
  simp only [setBalance, modify, code]
  by_cases h : a = b
  · subst h
    simp
  · rw [Function.update_of_ne h]

@[simp] theorem slot_setBalance (n : ℕ) : (w.setBalance b n).slot s = w.slot s := by
  simp only [setBalance, modify, slot, storage]
  by_cases h : systemAccountAddress = b
  · subst h
    simp
  · rw [Function.update_of_ne h]

@[simp] theorem logs_setBalance (n : ℕ) : (w.setBalance b n).logs = w.logs := rfl

@[simp] theorem code_log : (w.log e).code a = w.code a := rfl

@[simp] theorem slot_log : (w.log e).slot s = w.slot s := rfl

@[simp] theorem logs_log : (w.log e).logs = w.logs ++ [e] := rfl

/-- Nonces never fall to zero again. -/
theorem nonce_ne_zero_modify {f : Account → Account} (hf : ∀ acc, acc.nonce ≠ 0 → (f acc).nonce ≠ 0)
    (h : w.nonce b ≠ 0) : (w.modify a f).nonce b ≠ 0 := by
  simp only [modify, nonce] at h ⊢
  by_cases hb : b = a
  · subst hb
    rw [Function.update_self]
    exact hf _ h
  · rwa [Function.update_of_ne hb]

@[simp] theorem nonce_log : (w.log e).nonce a = w.nonce a := rfl

theorem ensureNonceAtLeastOne_nonce (acc : Account) : (ensureNonceAtLeastOne acc).nonce ≠ 0 := by
  rw [ensureNonceAtLeastOne]
  split
  · next h => simp [h]
  · next h => exact h

@[simp] theorem nonce_ensureAccountPersists_self : (w.ensureAccountPersists a).nonce a ≠ 0 := by
  simp only [ensureAccountPersists, modify, nonce, Function.update_self]
  exact ensureNonceAtLeastOne_nonce _

theorem nonce_ensureAccountPersists (h : w.nonce b ≠ 0) :
    (w.ensureAccountPersists a).nonce b ≠ 0 :=
  nonce_ne_zero_modify _ _ _ (fun acc _ => ensureNonceAtLeastOne_nonce acc) h

/-- A change of an account that is not about its balance. -/
theorem balance_modify {f : Account → Account} (hf : ∀ acc, (f acc).balance = acc.balance) :
    (w.modify a f).balance b = w.balance b := by
  simp only [modify, balance]
  by_cases hb : b = a
  · subst hb
    rw [Function.update_self]
    exact hf _
  · rw [Function.update_of_ne hb]

theorem balance_ensureNonceAtLeastOne (acc : Account) :
    (ensureNonceAtLeastOne acc).balance = acc.balance := by
  rw [ensureNonceAtLeastOne]
  split <;> rfl

@[simp] theorem balance_setCode : (w.setCode a c).balance b = w.balance b := by
  unfold setCode
  apply balance_modify
  intro acc
  exact balance_ensureNonceAtLeastOne _

@[simp] theorem balance_setSlot : (w.setSlot s v).balance b = w.balance b := by
  unfold setSlot setStorage
  apply balance_modify
  intro acc
  rfl

@[simp] theorem balance_ensureAccountPersists :
    (w.ensureAccountPersists a).balance b = w.balance b :=
  balance_modify _ _ _ balance_ensureNonceAtLeastOne

@[simp] theorem balance_log : (w.log e).balance b = w.balance b := rfl

@[simp] theorem balance_setBalances (f : Address → ℕ) : (w.setBalances f).balance = f := rfl

theorem balance_setBalance (n : ℕ) :
    (w.setBalance a n).balance = Function.update w.balance a n := by
  funext b
  simp only [setBalance, modify, balance]
  by_cases hb : b = a
  · subst hb
    rw [Function.update_self, Function.update_self]
  · rw [Function.update_of_ne hb, Function.update_of_ne hb, balance]

end World

end Arkiv
