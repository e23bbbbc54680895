import Mathlib
import Arkiv.Model.RemoteSchedule

/-!
# Which entry a node uses for a block

Payments look their parameters up by block number, so they do not depend on how
much of the schedule a node has installed. The base fee is computed from the last
installed entry, so it does.

## Main definitions

- `lastActive` — the last entry that is active at a block
- `UsesEntry` — a node computes payments and base fees of a block from an entry
- `SettledFrom` — no installed entry changes the base-fee rule of a block
- `usesEntry_iff` — two nodes use the active entry exactly when both are settled
-/

namespace Arkiv

section Lookup

variable {α : Type}

theorem find?_reverse_eq_getLast? (p : α → Bool) (l : List α) :
    l.reverse.find? p = (l.filter p).getLast? := by
  rw [List.getLast?_eq_head?_reverse, ← List.filter_reverse, List.head?_filter]

end Lookup

/-- The last entry that is active at the block. -/
def lastActive (entries : List ArkivProtocolScheduleEntry) (n : UInt64) :
    Option ArkivProtocolScheduleEntry :=
  (entries.filter fun entry => entry.activationBlock ≤ n).getLast?

/-- The lookup by block number is the last active entry. -/
theorem arkivProtocolParamsForBlock_eq (entries : List ArkivProtocolScheduleEntry) (n : UInt64) :
    arkivProtocolParamsForBlock entries n =
      ((lastActive entries n).map (·.params)).getD ArkivProtocolParams.default := by
  rw [arkivProtocolParamsForBlock, find?_reverse_eq_getLast?, lastActive]

variable {s s' : RemoteProtocolSchedule} {n : UInt64}

namespace RemoteProtocolSchedule

/-- The block up to which a node installs entries. -/
def horizon (s : RemoteProtocolSchedule) : UInt64 := s.currentBlock.getD 0xFFFFFFFFFFFFFFFF

theorem le_max (i : UInt64) : i ≤ 0xFFFFFFFFFFFFFFFF := by
  have hi := i.toNat_lt
  rw [UInt64.le_iff_toNat_le]
  show i.toNat ≤ 18446744073709551615
  omega

/-- A valid schedule starts with an entry for block 0. -/
theorem exists_first (h : s.validate = .ok ()) :
    ∃ first rest, s.schedule = first :: rest ∧ first.activationBlock = 0 := by
  rw [validate] at h
  split at h
  · simp at h
  next first rest heq =>
    by_cases hzero : first.activationBlock = 0
    · exact ⟨first, rest, heq, hzero⟩
    · simp [hzero] at h

/-- Something is active at every block. -/
theorem exists_lastActive (h : s.validate = .ok ()) (n : UInt64) :
    ∃ e, lastActive s.entries n = some e := by
  obtain ⟨first, rest, heq, hzero⟩ := exists_first h
  have hmem : first.toAlloy ∈ s.entries.filter fun entry => entry.activationBlock ≤ n := by
    rw [List.mem_filter, entries, heq]
    refine ⟨List.mem_cons_self, decide_eq_true ?_⟩
    show first.activationBlock ≤ n
    rw [hzero, UInt64.le_iff_toNat_le]
    exact Nat.zero_le _
  exact Option.isSome_iff_exists.mp (List.getLast?_isSome.mpr (List.ne_nil_of_mem hmem))

end RemoteProtocolSchedule

open RemoteProtocolSchedule

/-- A valid schedule is installed up to the horizon; the fallback is not taken. -/
theorem selectedEntries_eq (h : s.validate = .ok ()) :
    selectedEntries s = s.entries.filter fun entry => entry.activationBlock ≤ s.horizon := by
  obtain ⟨e, he⟩ := exists_lastActive h s.horizon
  have hne : (s.entries.filter fun entry => entry.activationBlock ≤ s.horizon) ≠ [] := by
    rintro hnil
    simp [lastActive, hnil] at he
  cases hc : s.currentBlock with
  | some c =>
    have hhorizon : s.horizon = c := by rw [horizon, hc, Option.getD_some]
    rw [hhorizon] at hne ⊢
    rw [selectedEntries, hc]
    exact if_neg hne
  | none =>
    have hall : (s.entries.filter fun entry => entry.activationBlock ≤ s.horizon) = s.entries := by
      rw [List.filter_eq_self]
      intro entry _
      rw [horizon, hc, Option.getD_none]
      exact decide_eq_true (le_max entry.activationBlock)
    rw [hall] at hne ⊢
    rw [selectedEntries, hc]
    exact if_neg hne

/-- What is active at a block up to the horizon is the same on the node as in the schedule. -/
theorem lastActive_selectedEntries (h : s.validate = .ok ()) (hn : n ≤ s.horizon) :
    lastActive (selectedEntries s) n = lastActive s.entries n := by
  rw [selectedEntries_eq h, lastActive, List.filter_filter, lastActive]
  congr 2
  funext entry
  by_cases hle : entry.activationBlock ≤ n
  · simp [hle, UInt64.le_trans hle hn]
  · simp [hle]

theorem arkivProtocolParamsLatest_selectedEntries (h : s.validate = .ok ())
    {e : ArkivProtocolScheduleEntry} (he : lastActive s.entries s.horizon = some e) :
    arkivProtocolParamsLatest (selectedEntries s) = e.params := by
  rw [lastActive] at he
  rw [arkivProtocolParamsLatest, selectedEntries_eq h, he]
  rfl

/-- What a node computes for a block is computed from the entry: the payment parameters, the rule
    of the base fee, and with it the base fee after any parent block. -/
structure UsesEntry (s : RemoteProtocolSchedule) (n : UInt64) (e : ArkivProtocolScheduleEntry) :
    Prop where
  payment : arkivProtocolParamsForBlock (selectedEntries s) n = e.params
  rule : (arkivProtocolParamsLatest (selectedEntries s)).baseFeeRule = e.params.baseFeeRule
  baseFee : ∀ gasUsed gasLimit baseFee, calcNextBlockBaseFee (selectedEntries s) gasUsed gasLimit
    baseFee = e.params.baseFeeRule.next gasUsed gasLimit baseFee

/-- The last entry up to the horizon has the base-fee rule of the last entry up to the block. -/
def SettledFrom (s : RemoteProtocolSchedule) (n : UInt64) : Prop :=
  ((lastActive s.entries s.horizon).map fun e => e.params.baseFeeRule) =
    (lastActive s.entries n).map fun e => e.params.baseFeeRule

/-- **One node**: payments always use the active entry, base fees when the node is settled. -/
theorem usesEntry_iff_settledFrom (h : s.validate = .ok ()) (hn : n ≤ s.horizon)
    {e : ArkivProtocolScheduleEntry} (he : lastActive s.entries n = some e) :
    UsesEntry s n e ↔ SettledFrom s n := by
  obtain ⟨f, hf⟩ := exists_lastActive h s.horizon
  have hlatest := arkivProtocolParamsLatest_selectedEntries h hf
  have hsettled : SettledFrom s n ↔ f.params.baseFeeRule = e.params.baseFeeRule := by
    simp [SettledFrom, he, hf]
  rw [hsettled]
  constructor
  · intro huses
    rw [← hlatest]
    exact huses.rule
  · intro hrule
    refine ⟨?_, by rw [hlatest, hrule], fun gasUsed gasLimit baseFee => ?_⟩
    · rw [arkivProtocolParamsForBlock_eq, lastActive_selectedEntries h hn, he]
      rfl
    · rw [calcNextBlockBaseFee, hlatest, hrule]

/-- **Schedule agreement**: two nodes that have installed one schedule up to the block or further
    both use the last entry active at the block exactly when, on both, the last installed entry
    has the base-fee rule of that entry. -/
theorem usesEntry_iff (hs : s'.schedule = s.schedule) (h : s.validate = .ok ())
    (hn : n ≤ s.horizon) (hn' : n ≤ s'.horizon) :
    ∃ e, lastActive s.entries n = some e ∧
      (UsesEntry s n e ∧ UsesEntry s' n e ↔ SettledFrom s n ∧ SettledFrom s' n) := by
  have hentries : s'.entries = s.entries := by rw [entries, hs, entries]
  have h' : s'.validate = .ok () := by
    rw [validate, hs]
    exact h
  obtain ⟨e, he⟩ := exists_lastActive h n
  refine ⟨e, he, and_congr (usesEntry_iff_settledFrom h hn he) ?_⟩
  exact usesEntry_iff_settledFrom h' hn' (by rw [hentries, he])

section Boundary

/-- A floor of one wei from block 0 on and of two wei from block 10 on. -/
def raisedFloor (currentBlock : Option UInt64) : RemoteProtocolSchedule where
  chainId := 1
  version := 1
  currentBlock := currentBlock
  schedule := [⟨0, 1, 2, 8, 30000000, ⟨false, 0, 0⟩⟩, ⟨10, 2, 2, 8, 30000000, ⟨false, 0, 0⟩⟩]

/-- At block 5 a node that has seen block 5 and one that has seen block 10 differ on the base
    fee. -/
theorem not_usesEntry_raisedFloor : ¬∀ (s s' : RemoteProtocolSchedule) (n : UInt64),
    s'.schedule = s.schedule → s.validate = .ok () → n ≤ s.horizon → n ≤ s'.horizon →
    ∃ e, lastActive s.entries n = some e ∧ UsesEntry s n e ∧ UsesEntry s' n e := by
  intro hclaim
  obtain ⟨e, -, huses, huses'⟩ := hclaim (raisedFloor (some 5)) (raisedFloor (some 10)) 5 rfl
    (by decide) (by decide) (by decide)
  have hfee := huses.baseFee 0 30000000 0
  rw [← huses'.baseFee 0 30000000 0] at hfee
  exact absurd hfee (by decide)

theorem usesEntry_iff_raisedFloor : ∃ e, lastActive (raisedFloor none).entries 12 = some e ∧
    (UsesEntry (raisedFloor none) 12 e ∧ UsesEntry (raisedFloor (some 15)) 12 e ↔
      SettledFrom (raisedFloor none) 12 ∧ SettledFrom (raisedFloor (some 15)) 12) :=
  usesEntry_iff rfl (by decide) (by decide) (by decide)

end Boundary

end Arkiv
