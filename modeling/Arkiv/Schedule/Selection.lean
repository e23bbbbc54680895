import Mathlib
import Arkiv.Lib.Run
import Arkiv.Lib.Threshold
import Arkiv.Schedule.Agreement

/-!
# What a lookup finds in the installed part of a schedule

Validation makes the activation blocks increase from zero. The filter of
`selected_entries` then cuts a prefix off, and the search from the back finds the
entry with the greatest activation block, below the block and the horizon.

## Main definitions

- `entryForBlock` — the entry that the lookup by block finds
- `lookupBound` — the block and the current block of the document, the lower of the two
- `Selects` — what is installed of a schedule and what is found in it
- `selects_of_validate` — selection and lookup under a valid schedule
-/

namespace Arkiv

open Threshold

variable {s : RemoteProtocolSchedule}

/-- The search of the lookup, from the last installed entry to the first. -/
def entryForBlock (schedule : List ArkivProtocolScheduleEntry) (blockNumber : UInt64) :
    Option ArkivProtocolScheduleEntry :=
  schedule.reverse.find? fun entry => entry.activationBlock ≤ blockNumber

def lookupBound (currentBlock : Option UInt64) (n : UInt64) : UInt64 := currentBlock.elim n (min n)

def activation (entry : ArkivProtocolScheduleEntry) : ℕ := entry.activationBlock.toNat

/-- The installed entries are a non-empty prefix; for every block the search finds the entry with
    the greatest activation block up to the bound, and for a later block no earlier entry. -/
structure Selects (s : RemoteProtocolSchedule) : Prop where
  ne_nil : selectedEntries s ≠ []
  isPrefix : selectedEntries s <+: s.entries
  found : ∀ n, ∃ e, entryForBlock (selectedEntries s) n = some e ∧
    arkivProtocolParamsForBlock (selectedEntries s) n = e.params ∧
    ∀ e', Greatest activation s.entries (lookupBound s.currentBlock n).toNat e' ↔ e' = e
  monotone : ∀ (n n' : UInt64) e e' (i i' : ℕ), n ≤ n' → entryForBlock (selectedEntries s) n = some e →
    entryForBlock (selectedEntries s) n' = some e' → s.entries[i]? = some e →
    s.entries[i']? = some e' → i ≤ i'

/-- The entries of a valid schedule, behind an entry that activates at `last`, increase. -/
theorem increasing_of_validateEntries {last : Option UInt64}
    {es : List RemoteProtocolScheduleEntry}
    (h : RemoteProtocolSchedule.validateEntries last es = .ok ()) :
    Increasing activation (es.map RemoteProtocolScheduleEntry.toAlloy) ∧
      ∀ b ∈ last, ∀ e ∈ es, b < e.activationBlock := by
  induction es generalizing last with
  | nil => exact ⟨List.Pairwise.nil, by simp⟩
  | cons e es ih =>
    rw [RemoteProtocolSchedule.validateEntries] at h
    split at h
    · cases h
    next hlast =>
    obtain ⟨_, -, hrest⟩ := Runs.ok_bind.mp h
    obtain ⟨hinc, habove⟩ := ih hrest
    have hhead : ∀ b ∈ last, b < e.activationBlock := by
      intro b hb
      rw [Option.mem_def] at hb
      subst hb
      simpa using hlast
    refine ⟨?_, ?_⟩
    · rw [List.map_cons]
      refine List.pairwise_cons.mpr ⟨fun f hf => ?_, hinc⟩
      obtain ⟨e', he', rfl⟩ := List.mem_map.mp hf
      exact UInt64.lt_iff_toNat_lt.mp (habove _ rfl e' he')
    · intro b hb e' he'
      obtain rfl | he' := List.mem_cons.mp he'
      · exact hhead b hb
      · exact UInt64.lt_trans (hhead b hb) (habove _ rfl e' he')

theorem increasing_entries (h : s.validate = .ok ()) : Increasing activation s.entries := by
  rw [RemoteProtocolSchedule.validate] at h
  split at h
  · cases h
  · split at h
    · cases h
    · exact (increasing_of_validateEntries h).1

theorem toNat_le_lookupBound {c : Option UInt64} {n i : UInt64} :
    i.toNat ≤ (lookupBound c n).toNat ↔ i ≤ n ∧ i ≤ c.getD 0xFFFFFFFFFFFFFFFF := by
  rw [← UInt64.le_iff_toNat_le]
  cases c with
  | none => exact ⟨fun hi => ⟨hi, RemoteProtocolSchedule.le_max i⟩, fun hi => hi.1⟩
  | some c =>
    show i ≤ min n c ↔ i ≤ n ∧ i ≤ c
    rw [Std.le_min_iff]

/-- The search looks among the entries of the whole schedule up to the bound. -/
theorem entryForBlock_selectedEntries (h : s.validate = .ok ()) (n : UInt64) :
    entryForBlock (selectedEntries s) n = (s.entries.filter fun entry =>
      activation entry ≤ (lookupBound s.currentBlock n).toNat).getLast? := by
  rw [entryForBlock, find?_reverse_eq_getLast?, selectedEntries_eq h, List.filter_filter]
  congr 2
  funext entry
  rw [activation, ← Bool.decide_and]
  exact decide_eq_decide.mpr toNat_le_lookupBound.symm

/-- What the search finds is the greatest entry up to the bound. -/
theorem entryForBlock_iff_greatest (h : s.validate = .ok ()) {n : UInt64}
    {e : ArkivProtocolScheduleEntry} : entryForBlock (selectedEntries s) n = some e ↔
      Greatest activation s.entries (lookupBound s.currentBlock n).toNat e := by
  have hinc := increasing_entries h
  rw [entryForBlock_selectedEntries h]
  constructor
  · exact hinc.greatest_of_getLast?
  · intro he
    have hmem : e ∈ s.entries.filter fun entry =>
        activation entry ≤ (lookupBound s.currentBlock n).toNat :=
      List.mem_filter.mpr ⟨he.mem, by simpa using he.le⟩
    obtain ⟨f, hf⟩ := Option.isSome_iff_exists.mp
      (List.getLast?_isSome.mpr (List.ne_nil_of_mem hmem))
    rw [hf, (hinc.greatest_of_getLast? hf).unique hinc he]

/-- **Selection and lookup**: under a valid schedule, whatever its current block. -/
theorem selects_of_validate (h : s.validate = .ok ()) : Selects s := by
  have hinc := increasing_entries h
  refine ⟨?_, ?_, fun n => ?_, fun n n' e e' i i' hle he he' hi hi' => ?_⟩
  · obtain ⟨e, he⟩ := RemoteProtocolSchedule.exists_lastActive h s.horizon
    rw [selectedEntries_eq h]
    rintro hnil
    simp [lastActive, hnil] at he
  · have hfilter : (fun entry : ArkivProtocolScheduleEntry => decide
        (entry.activationBlock ≤ s.horizon)) = fun entry => decide
          (activation entry ≤ s.horizon.toNat) := by
      funext entry
      exact decide_eq_decide.mpr UInt64.le_iff_toNat_le
    rw [selectedEntries_eq h, hfilter]
    exact hinc.filter_isPrefix _
  · obtain ⟨e, he⟩ := RemoteProtocolSchedule.exists_lastActive h (lookupBound s.currentBlock n)
    have hfound : entryForBlock (selectedEntries s) n = some e := by
      rw [entryForBlock_selectedEntries h, ← he]
      rfl
    have hgreatest := (entryForBlock_iff_greatest h).mp hfound
    refine ⟨e, hfound, ?_, fun e' => ⟨fun he' => he'.unique hinc hgreatest, ?_⟩⟩
    · show ((entryForBlock (selectedEntries s) n).map _).getD _ = _
      rw [hfound]
      rfl
    · rintro rfl
      exact hgreatest
  · have hbound : (lookupBound s.currentBlock n).toNat ≤ (lookupBound s.currentBlock n').toNat := by
      have hself := toNat_le_lookupBound (c := s.currentBlock) (n := n)
        (i := lookupBound s.currentBlock n)
      obtain ⟨hn, hc⟩ := hself.mp le_rfl
      exact toNat_le_lookupBound.mpr ⟨UInt64.le_trans hn hle, hc⟩
    have hg := (entryForBlock_iff_greatest h).mp he
    have hg' := (entryForBlock_iff_greatest h).mp he'
    exact hinc.index_le hi hi' (hg.mono hg' hbound)

/-- The floor of one wei is in force at block 10 for a node that has seen block 9 only. -/
theorem selects_raisedFloor : Selects (raisedFloor (some 9)) ∧
    (arkivProtocolParamsForBlock (selectedEntries (raisedFloor (some 9))) 10).minBaseFeePerGas = 1 :=
  ⟨selects_of_validate (by decide), by decide⟩

end Arkiv
