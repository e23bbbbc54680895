import Mathlib
import Arkiv.Lib.Run
import Arkiv.Schedule.Agreement

/-!
# The arithmetic of the base fee

The rule of the next base fee multiplies, divides, casts and adds in 128-bit and
64-bit numbers, with an elasticity and a denominator that the validation of a
schedule only keeps from zero.

## Main definitions

- `BaseFeeRule.nextExact` — the rule with every operation checked
- `SafeFee` — no operation goes wrong and the fee keeps its bounds
- `FeeHeadroom` — what this takes of the parent block
- `safeFee_iff` — the two agree under every valid schedule
-/

namespace Arkiv

/-- A value of `w` bits. -/
def ofWidth (w n : ℕ) : Option ℕ := if n < 2 ^ w then some n else none

/-- Division, if not by zero. -/
def quotient (n d : ℕ) : Option ℕ := if d = 0 then none else some (n / d)

theorem ofWidth_eq_some {w n m : ℕ} : ofWidth w n = some m ↔ n < 2 ^ w ∧ n = m := by
  by_cases h : n < 2 ^ w <;> simp [ofWidth, h]

theorem quotient_of_ne_zero {n d : ℕ} (hd : d ≠ 0) : quotient n d = some (n / d) := if_neg hd

namespace BaseFeeRule

/-- The change of the fee at a distance from the target: both products in 128 bits, the quotient
    not by zero. -/
def changeExact (rule : BaseFeeRule) (baseFee gasTarget gasDelta : ℕ) : Option ℕ := do
  let scaled ← ofWidth 128 (baseFee * gasDelta)
  let divisor ← ofWidth 128 (gasTarget * rule.baseFeeMaxChangeDenominator)
  quotient scaled divisor

/-- The rule of `next` on exact numbers; `none` where an operation divides by zero, leaves its
    type or where a cast loses a digit. -/
def nextExact (rule : BaseFeeRule) (gasUsed gasLimit baseFee : ℕ) : Option ℕ :=
  let floor (fee : ℕ) : ℕ := max fee rule.minBaseFeePerGas.toNat
  if rule.elasticityMultiplier = 0 ∨ rule.baseFeeMaxChangeDenominator = 0 then some (floor baseFee)
  else do
    let gasTarget ← quotient gasLimit rule.elasticityMultiplier
    let gasTarget ← ofWidth 64 gasTarget
    if gasTarget = 0 ∨ gasUsed = gasTarget then some (floor baseFee)
    else if gasTarget < gasUsed then do
      let increase ← rule.changeExact baseFee gasTarget (gasUsed - gasTarget)
      let increase ← ofWidth 64 (max 1 increase)
      let fee ← ofWidth 64 (baseFee + increase)
      some (floor fee)
    else do
      let decrease ← rule.changeExact baseFee gasTarget (gasTarget - gasUsed)
      let decrease ← ofWidth 64 decrease
      some (floor (baseFee - decrease))

/-- The target of a block. -/
def gasTarget (rule : BaseFeeRule) (gasLimit : UInt64) : ℕ :=
  gasLimit.toNat / rule.elasticityMultiplier

end BaseFeeRule

/-- The next fee is computed without a division by zero, an overflow or a cast that loses a digit,
    it is at least the installed minimum, and at least the old fee from the target on. -/
def SafeFee (installed : List ArkivProtocolScheduleEntry) (gasUsed gasLimit baseFee : UInt64) :
    Prop :=
  let rule := (arkivProtocolParamsLatest installed).baseFeeRule
  ∃ fee : UInt64, calcNextBlockBaseFee installed gasUsed gasLimit baseFee = some fee ∧
    rule.nextExact gasUsed.toNat gasLimit.toNat baseFee.toNat = some fee.toNat ∧
    rule.minBaseFeePerGas ≤ fee ∧ (rule.gasTarget gasLimit ≤ gasUsed.toNat → baseFee ≤ fee)

/-- Away from the target the target times the denominator is a 128-bit number; above it the fee
    has room for its relative increase, and for one wei. -/
def FeeHeadroom (rule : BaseFeeRule) (gasUsed gasLimit baseFee : UInt64) : Prop :=
  let gasTarget := rule.gasTarget gasLimit
  let divisor := gasTarget * rule.baseFeeMaxChangeDenominator
  gasTarget = 0 ∨ gasUsed.toNat = gasTarget ∨
    divisor < 2 ^ 128 ∧
      (gasTarget < gasUsed.toNat →
        baseFee.toNat + 1 < 2 ^ 64 ∧
          baseFee.toNat * (gasUsed.toNat - gasTarget) < (2 ^ 64 - baseFee.toNat) * divisor)

namespace RemoteProtocolSchedule

theorem validateEntries_mem {last : Option UInt64} {es : List RemoteProtocolScheduleEntry}
    (h : validateEntries last es = .ok ()) : ∀ e ∈ es, e.validate = .ok () := by
  induction es generalizing last with
  | nil => simp
  | cons e es ih =>
    rw [validateEntries] at h
    split at h
    · simp at h
    · obtain ⟨u, he, hes⟩ := Runs.ok_bind.mp h
      exact List.forall_mem_cons.mpr ⟨he, ih hes⟩

theorem validate_mem {s : RemoteProtocolSchedule} (h : s.validate = .ok ()) :
    ∀ e ∈ s.schedule, e.validate = .ok () := by
  obtain ⟨first, rest, heq, hzero⟩ := exists_first h
  rw [validate, heq] at h
  simp only [hzero, ne_eq, not_true_eq_false, if_false] at h
  rw [heq]
  exact validateEntries_mem h

end RemoteProtocolSchedule

theorem RemoteProtocolScheduleEntry.ne_zero_of_validate {e : RemoteProtocolScheduleEntry}
    (h : e.validate = .ok ()) :
    e.elasticityMultiplier ≠ 0 ∧ e.baseFeeMaxChangeDenominator ≠ 0 := by
  rw [validate] at h
  split_ifs at h with he hd
  exact ⟨he, hd⟩

/-- The last installed entry of a valid schedule has an elasticity and a denominator. -/
theorem latest_ne_zero {s : RemoteProtocolSchedule} (h : s.validate = .ok ()) :
    (arkivProtocolParamsLatest (selectedEntries s)).baseFeeRule.elasticityMultiplier ≠ 0 ∧
      (arkivProtocolParamsLatest (selectedEntries s)).baseFeeRule.baseFeeMaxChangeDenominator ≠
        0 := by
  obtain ⟨entry, hentry⟩ := RemoteProtocolSchedule.exists_lastActive h s.horizon
  rw [arkivProtocolParamsLatest_selectedEntries h hentry]
  have hmem := (List.mem_filter.mp (List.mem_of_getLast? hentry)).1
  obtain ⟨e, he, rfl⟩ := List.mem_map.mp hmem
  exact RemoteProtocolScheduleEntry.ne_zero_of_validate (RemoteProtocolSchedule.validate_mem h e he)

/-- A fee has room for its increase when the increase, before it is rounded down, stays below the
    distance to `2 ^ 64`. -/
theorem increase_lt_iff {fee delta divisor : ℕ} (hd : 0 < divisor) (hfee : fee < 2 ^ 64) :
    fee + max 1 (fee * delta / divisor) < 2 ^ 64 ↔
      fee + 1 < 2 ^ 64 ∧ fee * delta < (2 ^ 64 - fee) * divisor := by
  rw [← Nat.div_lt_iff_lt_mul hd]
  omega

namespace BaseFeeRule

variable {rule : BaseFeeRule} {baseFee gasTarget gasDelta : ℕ}

/-- The scaled fee always fits, the divisor need not. -/
theorem changeExact_eq (hfee : baseFee < 2 ^ 64) (hdelta : gasDelta < 2 ^ 64)
    (hd : gasTarget * rule.baseFeeMaxChangeDenominator ≠ 0) :
    rule.changeExact baseFee gasTarget gasDelta =
      if gasTarget * rule.baseFeeMaxChangeDenominator < 2 ^ 128 then
        some (baseFee * gasDelta / (gasTarget * rule.baseFeeMaxChangeDenominator))
      else none := by
  have hscaled : baseFee * gasDelta < 2 ^ 128 := by
    calc baseFee * gasDelta < 2 ^ 64 * 2 ^ 64 := Nat.mul_lt_mul'' hfee hdelta
      _ = 2 ^ 128 := by norm_num
  rw [changeExact, ofWidth_eq_some.mpr ⟨hscaled, rfl⟩]
  by_cases hdiv : gasTarget * rule.baseFeeMaxChangeDenominator < 2 ^ 128
  · rw [ofWidth_eq_some.mpr ⟨hdiv, rfl⟩, if_pos hdiv]
    exact quotient_of_ne_zero hd
  · rw [ofWidth, if_neg hdiv, if_neg hdiv]
    rfl

/-- A decrease is at most the fee. -/
theorem decrease_le (hdelta : gasDelta ≤ gasTarget) (hd : rule.baseFeeMaxChangeDenominator ≠ 0) :
    baseFee * gasDelta / (gasTarget * rule.baseFeeMaxChangeDenominator) ≤ baseFee := by
  apply Nat.div_le_of_le_mul
  have hle : gasDelta ≤ gasTarget * rule.baseFeeMaxChangeDenominator :=
    hdelta.trans (Nat.le_mul_of_pos_right _ (Nat.pos_of_ne_zero hd))
  calc baseFee * gasDelta ≤ baseFee * (gasTarget * rule.baseFeeMaxChangeDenominator) :=
        Nat.mul_le_mul_left _ hle
    _ = gasTarget * rule.baseFeeMaxChangeDenominator * baseFee := Nat.mul_comm _ _

/-- The rule with a target: what is left to check are the two changes. -/
theorem nextExact_eq {gasUsed gasLimit baseFee : ℕ} (he : rule.elasticityMultiplier ≠ 0)
    (hd : rule.baseFeeMaxChangeDenominator ≠ 0) (hlimit : gasLimit < 2 ^ 64) {t : ℕ}
    (ht : gasLimit / rule.elasticityMultiplier = t) :
    rule.nextExact gasUsed gasLimit baseFee =
      if t = 0 ∨ gasUsed = t then some (max baseFee rule.minBaseFeePerGas.toNat)
      else if t < gasUsed then
        ((rule.changeExact baseFee t (gasUsed - t)).bind fun increase =>
          (ofWidth 64 (max 1 increase)).bind fun increase =>
            (ofWidth 64 (baseFee + increase)).bind fun fee =>
              some (max fee rule.minBaseFeePerGas.toNat))
      else
        ((rule.changeExact baseFee t (t - gasUsed)).bind fun decrease =>
          (ofWidth 64 decrease).bind fun decrease =>
            some (max (baseFee - decrease) rule.minBaseFeePerGas.toNat)) := by
  have hfits : t < 2 ^ 64 := by
    rw [← ht]
    exact (Nat.div_le_self _ _).trans_lt hlimit
  rw [nextExact, if_neg (by tauto), quotient_of_ne_zero he, ht]
  show (ofWidth 64 t).bind _ = _
  rw [ofWidth_eq_some.mpr ⟨hfits, rfl⟩]
  rfl

section Blocks

variable {gasUsed gasLimit baseFee : UInt64} (he : rule.elasticityMultiplier ≠ 0)
  (hd : rule.baseFeeMaxChangeDenominator ≠ 0)

include he hd

theorem nextExact_atTarget
    (h : rule.gasTarget gasLimit = 0 ∨ gasUsed.toNat = rule.gasTarget gasLimit) :
    rule.nextExact gasUsed.toNat gasLimit.toNat baseFee.toNat =
      some (max baseFee.toNat rule.minBaseFeePerGas.toNat) := by
  rw [nextExact_eq he hd gasLimit.toNat_lt rfl]
  exact if_pos h

/-- Above the target: the divisor fits, and the increased fee does. -/
theorem nextExact_above (h0 : rule.gasTarget gasLimit ≠ 0)
    (hlt : rule.gasTarget gasLimit < gasUsed.toNat) {raised : ℕ}
    (hraised : baseFee.toNat + max 1 (baseFee.toNat * (gasUsed.toNat - rule.gasTarget gasLimit) /
      (rule.gasTarget gasLimit * rule.baseFeeMaxChangeDenominator)) = raised) :
    rule.nextExact gasUsed.toNat gasLimit.toNat baseFee.toNat =
      if rule.gasTarget gasLimit * rule.baseFeeMaxChangeDenominator < 2 ^ 128 ∧ raised < 2 ^ 64 then
        some (max raised rule.minBaseFeePerGas.toNat)
      else none := by
  have hused := gasUsed.toNat_lt
  have hne : ¬gasUsed.toNat = rule.gasTarget gasLimit := by omega
  rw [nextExact_eq he hd gasLimit.toNat_lt rfl, ← gasTarget, if_neg (by tauto), if_pos hlt,
    changeExact_eq baseFee.toNat_lt (by omega) (Nat.mul_ne_zero h0 hd)]
  by_cases hdiv : rule.gasTarget gasLimit * rule.baseFeeMaxChangeDenominator < 2 ^ 128
  · rw [if_pos hdiv, Option.bind_some]
    by_cases hfits : raised < 2 ^ 64
    · rw [if_pos ⟨hdiv, hfits⟩, ofWidth_eq_some.mpr ⟨by omega, rfl⟩, Option.bind_some, hraised,
        ofWidth_eq_some.mpr ⟨hfits, rfl⟩, Option.bind_some]
    · rw [if_neg (by tauto), ofWidth]
      split_ifs
      · rw [Option.bind_some, hraised, ofWidth, if_neg hfits, Option.bind_none]
      · rfl
  · rw [if_neg hdiv, if_neg (by tauto), Option.bind_none]

/-- Below the target: the divisor fits. -/
theorem nextExact_below (hlt : gasUsed.toNat < rule.gasTarget gasLimit) {decrease : ℕ}
    (hdecrease : baseFee.toNat * (rule.gasTarget gasLimit - gasUsed.toNat) /
      (rule.gasTarget gasLimit * rule.baseFeeMaxChangeDenominator) = decrease) :
    rule.nextExact gasUsed.toNat gasLimit.toNat baseFee.toNat =
      if rule.gasTarget gasLimit * rule.baseFeeMaxChangeDenominator < 2 ^ 128 then
        some (max (baseFee.toNat - decrease) rule.minBaseFeePerGas.toNat)
      else none := by
  have hfee := baseFee.toNat_lt
  have hlimit : rule.gasTarget gasLimit < 2 ^ 64 :=
    (Nat.div_le_self _ _).trans_lt gasLimit.toNat_lt
  have hle := @decrease_le rule baseFee.toNat (rule.gasTarget gasLimit)
    (rule.gasTarget gasLimit - gasUsed.toNat) (Nat.sub_le _ _) hd
  have h0 : rule.gasTarget gasLimit ≠ 0 := by omega
  rw [nextExact_eq he hd gasLimit.toNat_lt rfl, ← gasTarget, if_neg (by omega),
    if_neg (by omega), changeExact_eq hfee (by omega) (Nat.mul_ne_zero h0 hd), hdecrease]
  split_ifs with hdiv
  · rw [Option.bind_some, ofWidth_eq_some.mpr ⟨by omega, rfl⟩, Option.bind_some]
  · rfl

/-- **When the arithmetic goes through.** -/
theorem exists_nextExact_iff :
    (∃ n, rule.nextExact gasUsed.toNat gasLimit.toNat baseFee.toNat = some n) ↔
      FeeHeadroom rule gasUsed gasLimit baseFee := by
  by_cases h0 : rule.gasTarget gasLimit = 0 ∨ gasUsed.toNat = rule.gasTarget gasLimit
  · rw [nextExact_atTarget he hd h0]
    exact ⟨fun _ => h0.elim .inl fun h => .inr (.inl h), fun _ => ⟨_, rfl⟩⟩
  obtain ⟨hzero, hne⟩ := not_or.mp h0
  have hdivisor := Nat.pos_of_ne_zero (Nat.mul_ne_zero hzero hd)
  by_cases hlt : rule.gasTarget gasLimit < gasUsed.toNat
  · rw [nextExact_above he hd hzero hlt rfl, FeeHeadroom]
    have hroom := @increase_lt_iff _ (gasUsed.toNat - rule.gasTarget gasLimit) _ hdivisor
      baseFee.toNat_lt
    split_ifs with hfits
    · exact ⟨fun _ => .inr (.inr ⟨hfits.1, fun _ => hroom.mp hfits.2⟩), fun _ => ⟨_, rfl⟩⟩
    · simp only [exists_false, false_iff]
      tauto
  · rw [nextExact_below he hd (by omega) rfl, FeeHeadroom]
    split_ifs with hdiv
    · exact ⟨fun _ => .inr (.inr ⟨hdiv, fun h => absurd h hlt⟩), fun _ => ⟨_, rfl⟩⟩
    · simp only [exists_false, false_iff]
      tauto

/-- An exact fee keeps both bounds. -/
theorem nextExact_bounds {n : ℕ}
    (h : rule.nextExact gasUsed.toNat gasLimit.toNat baseFee.toNat = some n) :
    rule.minBaseFeePerGas.toNat ≤ n ∧
      (rule.gasTarget gasLimit ≤ gasUsed.toNat → baseFee.toNat ≤ n) := by
  by_cases h0 : rule.gasTarget gasLimit = 0 ∨ gasUsed.toNat = rule.gasTarget gasLimit
  · rw [nextExact_atTarget he hd h0, Option.some.injEq] at h
    omega
  obtain ⟨hzero, hne⟩ := not_or.mp h0
  by_cases hlt : rule.gasTarget gasLimit < gasUsed.toNat
  · rw [nextExact_above he hd hzero hlt rfl] at h
    split_ifs at h
    have hn := Option.some.inj h
    omega
  · rw [nextExact_below he hd (by omega) rfl] at h
    split_ifs at h
    have hn := Option.some.inj h
    omega

omit he hd in
theorem toNat_max (a b : UInt64) : (max a b).toNat = max a.toNat b.toNat := by
  show (if a ≤ b then b else a).toNat = _
  split <;> rename_i h <;> rw [UInt64.le_iff_toNat_le] at h <;> omega

omit he hd in
theorem toNat_gasTarget :
    (UInt64.ofNat (gasLimit.toNat / rule.elasticityMultiplier)).toNat = rule.gasTarget gasLimit :=
  UInt64.toNat_ofNat_of_lt' ((Nat.div_le_self _ _).trans_lt gasLimit.toNat_lt)

/-- **The wrapping arithmetic is exact** wherever the checked one gives a fee. -/
theorem next_of_nextExact {n : ℕ}
    (h : rule.nextExact gasUsed.toNat gasLimit.toNat baseFee.toNat = some n) :
    ∃ fee, rule.next gasUsed gasLimit baseFee = some fee ∧ fee.toNat = n := by
  have hT := @toNat_gasTarget rule gasLimit
  have hzero : UInt64.ofNat (gasLimit.toNat / rule.elasticityMultiplier) = 0 ↔
      rule.gasTarget gasLimit = 0 := by
    rw [← hT]
    exact UInt64.toNat_inj.symm
  have hat : gasUsed = UInt64.ofNat (gasLimit.toNat / rule.elasticityMultiplier) ↔
      gasUsed.toNat = rule.gasTarget gasLimit := by
    rw [← hT]
    exact UInt64.toNat_inj.symm
  have habove : UInt64.ofNat (gasLimit.toNat / rule.elasticityMultiplier) < gasUsed ↔
      rule.gasTarget gasLimit < gasUsed.toNat := by
    rw [← hT]
    exact UInt64.lt_iff_toNat_lt
  have hfee := baseFee.toNat_lt
  rw [next, if_neg (by tauto)]
  simp only [hzero, hat, habove, hT]
  by_cases h0 : rule.gasTarget gasLimit = 0 ∨ gasUsed.toNat = rule.gasTarget gasLimit
  · rw [nextExact_atTarget he hd h0, Option.some.injEq] at h
    refine ⟨max baseFee rule.minBaseFeePerGas, ?_, by rw [toNat_max, h]⟩
    split_ifs <;> first | rfl | tauto
  obtain ⟨hz, hne⟩ := not_or.mp h0
  rw [if_neg hz, if_neg hne]
  have hdivisor := Nat.mul_ne_zero hz hd
  by_cases hlt : rule.gasTarget gasLimit < gasUsed.toNat
  · rw [nextExact_above he hd hz hlt rfl] at h
    split_ifs at h with hfits
    have hn := Option.some.inj h
    have hsub : (gasUsed - UInt64.ofNat (gasLimit.toNat / rule.elasticityMultiplier)).toNat =
        gasUsed.toNat - rule.gasTarget gasLimit := by
      rw [UInt64.toNat_sub_of_le _ _ (UInt64.le_iff_toNat_le.mpr (by omega)), hT]
    rw [if_pos hlt, Nat.mod_eq_of_lt hfits.1, if_neg hdivisor, hsub]
    refine ⟨_, rfl, ?_⟩
    rw [toNat_max, UInt64.toNat_add, UInt64.toNat_ofNat_of_lt' (by
      show _ < 2 ^ 64
      omega), Nat.mod_eq_of_lt hfits.2, hn]
  · rw [nextExact_below he hd (by omega) rfl] at h
    split_ifs at h with hfits
    have hn := Option.some.inj h
    have hle := @decrease_le rule baseFee.toNat (rule.gasTarget gasLimit)
      (rule.gasTarget gasLimit - gasUsed.toNat) (Nat.sub_le _ _) hd
    have hsub : (UInt64.ofNat (gasLimit.toNat / rule.elasticityMultiplier) - gasUsed).toNat =
        rule.gasTarget gasLimit - gasUsed.toNat := by
      rw [UInt64.toNat_sub_of_le _ _ (UInt64.le_iff_toNat_le.mpr (by omega)), hT]
    rw [if_neg hlt, Nat.mod_eq_of_lt hfits, if_neg hdivisor, hsub]
    generalize baseFee.toNat * (rule.gasTarget gasLimit - gasUsed.toNat) /
      (rule.gasTarget gasLimit * rule.baseFeeMaxChangeDenominator) = decrease at hle hn
    have hdecrease : (UInt64.ofNat decrease).toNat = decrease :=
      UInt64.toNat_ofNat_of_lt' (hle.trans_lt hfee)
    have hlowered : (UInt64.ofNat (baseFee.toNat - decrease)).toNat = baseFee.toNat - decrease :=
      UInt64.toNat_ofNat_of_lt' ((Nat.sub_le _ _).trans_lt hfee)
    refine ⟨_, rfl, ?_⟩
    rw [toNat_max, hdecrease, hlowered, hn]

end Blocks

end BaseFeeRule

/-- **Base-fee arithmetic**: under a valid schedule, whatever part of it is installed, the next fee
    is safe exactly when the parent block leaves headroom. -/
theorem safeFee_iff {s : RemoteProtocolSchedule} (h : s.validate = .ok ())
    (gasUsed gasLimit baseFee : UInt64) :
    SafeFee (selectedEntries s) gasUsed gasLimit baseFee ↔
      FeeHeadroom (arkivProtocolParamsLatest (selectedEntries s)).baseFeeRule gasUsed gasLimit
        baseFee := by
  obtain ⟨he, hd⟩ := latest_ne_zero h
  rw [← BaseFeeRule.exists_nextExact_iff he hd]
  constructor
  · rintro ⟨fee, -, hexact, -, -⟩
    exact ⟨_, hexact⟩
  · rintro ⟨n, hn⟩
    obtain ⟨fee, hfee, rfl⟩ := BaseFeeRule.next_of_nextExact he hd hn
    obtain ⟨hmin, hbase⟩ := BaseFeeRule.nextExact_bounds he hd hn
    exact ⟨fee, hfee, hn, UInt64.le_iff_toNat_le.mpr hmin,
      fun ht => UInt64.le_iff_toNat_le.mpr (hbase ht)⟩

section Limits

/-- A schedule whose denominator is the power `2 ^ 127`. -/
def hugeDenominator : RemoteProtocolSchedule where
  chainId := 1
  version := 1
  currentBlock := none
  schedule := [⟨0, 1, 2, 2 ^ 127, 30000000, ⟨false, 0, 0⟩⟩]

/-- A full block under that schedule makes the node divide by zero. -/
theorem not_safeFee_hugeDenominator : ¬∀ (s : RemoteProtocolSchedule)
    (gasUsed gasLimit baseFee : UInt64), s.validate = .ok () → gasUsed ≤ gasLimit →
    SafeFee (selectedEntries s) gasUsed gasLimit baseFee := by
  intro hclaim
  obtain ⟨fee, hfee, -⟩ := hclaim hugeDenominator 30000000 30000000 7 (by decide) (by decide)
  have hnone : calcNextBlockBaseFee (selectedEntries hugeDenominator) 30000000 30000000 7 = none :=
    by decide
  rw [hnone] at hfee
  exact Option.some_ne_none fee hfee.symm

/-- An elasticity of two and a denominator of eight. -/
def usualSchedule : RemoteProtocolSchedule where
  chainId := 1
  version := 1
  currentBlock := some 3
  schedule := [⟨0, 1, 2, 8, 30000000, ⟨false, 0, 0⟩⟩]

theorem safeFee_usualSchedule :
    SafeFee (selectedEntries usualSchedule) 30000000 30000000 1000000000 ↔
      FeeHeadroom (arkivProtocolParamsLatest (selectedEntries usualSchedule)).baseFeeRule 30000000
        30000000 1000000000 :=
  safeFee_iff (by decide) 30000000 30000000 1000000000

end Limits

end Arkiv
