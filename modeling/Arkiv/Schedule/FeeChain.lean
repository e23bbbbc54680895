import Mathlib
import Arkiv.Schedule.BaseFee

/-!
# The base fee along a chain

The fee of a block is computed from the fee of its parent, so a chain of blocks is a
run of the rule. Blocks without gas bring the fee down to where it rests, blocks
above their target raise it, and the minimum holds throughout.

## Main definitions

- `feeAfter` — the fee after a chain of blocks
- `decay` — what a block without gas does to the fee
- `feeAfter_empty` — the fee of a chain without gas, and where it rests
- `feeAfter_bounds` — the fee of a chain with headroom
-/

namespace Arkiv

/-- What the rule reads of a block. -/
structure BlockGas where
  gasUsed : UInt64
  gasLimit : UInt64
deriving DecidableEq, Repr

/-- The fee after a chain of blocks, as long as the rule gives one. -/
def feeAfter (installed : List ArkivProtocolScheduleEntry) (fee : UInt64) (blocks : List BlockGas) :
    Option UInt64 :=
  blocks.foldlM (fun fee b => calcNextBlockBaseFee installed b.gasUsed b.gasLimit fee) fee

theorem feeAfter_cons {installed : List ArkivProtocolScheduleEntry} {fee fee' : UInt64}
    {b : BlockGas} {blocks : List BlockGas}
    (h : calcNextBlockBaseFee installed b.gasUsed b.gasLimit fee = some fee') :
    feeAfter installed fee (b :: blocks) = feeAfter installed fee' blocks := by
  rw [feeAfter, List.foldlM_cons, h]
  rfl

section Decay

/-- A fee that loses its share of the denominator, down to the minimum. -/
def decay (d floor fee : ℕ) : ℕ := max (fee - fee / d) floor

/-- The fee that no block without gas changes any more. -/
def restingFee (d floor fee : ℕ) : ℕ := max (min fee (d - 1)) floor

variable {d floor fee : ℕ}

theorem decay_of_lt (h : fee < d) : decay d floor fee = max fee floor := by
  rw [decay, Nat.div_eq_of_lt h, Nat.sub_zero]

/-- From the denominator on, a share is at least one wei and leaves the rest above the
    denominator less one. -/
theorem pred_le_sub_div (hd : 0 < d) (h : d ≤ fee) : 1 ≤ fee / d ∧ d - 1 ≤ fee - fee / d := by
  have hq : 1 ≤ fee / d := (Nat.one_le_div_iff hd).mpr h
  have hle : fee / d * d ≤ fee := Nat.div_mul_le_self fee d
  have hsplit : fee / d * d = fee / d * (d - 1) + fee / d := by
    obtain ⟨e, rfl⟩ := Nat.exists_eq_succ_of_ne_zero hd.ne'
    rw [Nat.succ_sub_one, Nat.mul_succ]
  have hmul : 1 * (d - 1) ≤ fee / d * (d - 1) := Nat.mul_le_mul_right _ hq
  omega

/-- A step does not change where the fee comes to rest. -/
theorem restingFee_decay (hd : 0 < d) : restingFee d floor (decay d floor fee) =
    restingFee d floor fee := by
  by_cases h : fee < d
  · rw [decay_of_lt h, restingFee, restingFee]
    omega
  · have hrest := pred_le_sub_div hd (Nat.not_lt.mp h)
    rw [decay, restingFee, restingFee]
    omega

/-- A fee below the denominator or at the minimum stays. -/
theorem decay_eq_self (hfloor : floor ≤ fee) (h : fee < d ∨ fee = floor) :
    decay d floor fee = fee := by
  rcases h with h | rfl
  · rw [decay_of_lt h, max_eq_left hfloor]
  · exact max_eq_right (Nat.sub_le _ _)

theorem iterate_decay_of_floor_le (hd : 0 < d) {k : ℕ} (hfloor : floor ≤ fee) (hk : fee ≤ k) :
    (decay d floor)^[k] fee = restingFee d floor fee := by
  induction k generalizing fee with
  | zero =>
    obtain rfl := Nat.le_zero.mp hk
    rw [Function.iterate_zero_apply, restingFee]
    omega
  | succ k ih =>
    by_cases hstay : fee < d ∨ fee = floor
    · -- the fee is at rest already
      rw [Function.iterate_fixed (decay_eq_self hfloor hstay), restingFee]
      omega
    · obtain ⟨hlarge, hne⟩ := not_or.mp hstay
      have hshare := pred_le_sub_div hd (Nat.not_lt.mp hlarge)
      have hge : floor ≤ decay d floor fee := le_max_right _ _
      have hlow : decay d floor fee ≤ k := by
        rw [decay]
        omega
      rw [Function.iterate_succ_apply, ih hge hlow, restingFee_decay hd]

/-- A fee of `n` wei rests after `n + 1` steps. -/
theorem iterate_decay (hd : 0 < d) {k : ℕ} (hk : fee < k) :
    (decay d floor)^[k] fee = restingFee d floor fee := by
  by_cases hfloor : floor ≤ fee
  · exact iterate_decay_of_floor_le hd hfloor hk.le
  · -- the first step lifts the fee to the minimum, where it stays
    obtain ⟨k, rfl⟩ := Nat.exists_eq_succ_of_ne_zero (Nat.ne_zero_of_lt hk)
    have hlift : decay d floor fee = floor :=
      max_eq_right ((Nat.sub_le _ _).trans (by omega))
    rw [Function.iterate_succ_apply, hlift, Function.iterate_fixed (decay_eq_self le_rfl (.inr rfl)),
      restingFee]
    omega

/-- A step multiplies what is above the resting fee by `(d - 1) / d`. -/
theorem mul_decay_le (hd : 0 < d) :
    d * decay d floor fee ≤ max ((d - 1) * fee + (d - 1)) (d * floor) := by
  rw [decay, ← Nat.mul_max_mul_left]
  apply max_le_max_right
  have hlt : fee < d * (fee / d + 1) := Nat.lt_mul_div_succ fee hd
  obtain ⟨e, rfl⟩ := Nat.exists_eq_succ_of_ne_zero hd.ne'
  have hle : fee / e.succ ≤ fee := Nat.div_le_self _ _
  zify [hle] at hlt ⊢
  push_cast
  nlinarith

theorem pow_mul_iterate_decay_le (hd : 0 < d) (k : ℕ) :
    d ^ k * (decay d floor)^[k] fee ≤ (d - 1) ^ k * fee + d ^ k * max (d - 1) floor := by
  induction k with
  | zero => simp
  | succ k ih =>
    rw [Function.iterate_succ_apply', pow_succ d k, mul_assoc, mul_assoc]
    generalize (decay d floor)^[k] fee = n at ih ⊢
    have hrest : (d - 1) * max (d - 1) floor + (d - 1) ≤ d * max (d - 1) floor := by
      calc (d - 1) * max (d - 1) floor + (d - 1)
          ≤ (d - 1) * max (d - 1) floor + max (d - 1) floor :=
            Nat.add_le_add_left (le_max_left _ _) _
        _ = d * max (d - 1) floor := by rw [← Nat.succ_mul, Nat.succ_eq_add_one, Nat.sub_add_cancel hd]
    rcases le_max_iff.mp (mul_decay_le hd : d * decay d floor n ≤ _) with h | h
    · calc d ^ k * (d * decay d floor n)
          ≤ d ^ k * ((d - 1) * n + (d - 1)) := Nat.mul_le_mul_left _ h
        _ = (d - 1) * (d ^ k * n) + d ^ k * (d - 1) := by ring
        _ ≤ (d - 1) * ((d - 1) ^ k * fee + d ^ k * max (d - 1) floor) + d ^ k * (d - 1) :=
            Nat.add_le_add_right (Nat.mul_le_mul_left _ ih) _
        _ = (d - 1) ^ (k + 1) * fee + d ^ k * ((d - 1) * max (d - 1) floor + (d - 1)) := by ring
        _ ≤ (d - 1) ^ (k + 1) * fee + d ^ k * (d * max (d - 1) floor) :=
            Nat.add_le_add_left (Nat.mul_le_mul_left _ hrest) _
    · calc d ^ k * (d * decay d floor n)
          ≤ d ^ k * (d * max (d - 1) floor) :=
            Nat.mul_le_mul_left _ (h.trans (Nat.mul_le_mul_left _ (le_max_right _ _)))
        _ ≤ (d - 1) ^ (k + 1) * fee + d ^ k * (d * max (d - 1) floor) := Nat.le_add_left _ _

end Decay

namespace BaseFeeRule

/-- A block with a target that uses no gas. -/
structure Idle (rule : BaseFeeRule) (b : BlockGas) : Prop where
  unused : b.gasUsed = 0
  target : rule.gasTarget b.gasLimit ≠ 0

/-- A block with a target that uses more gas than that. -/
def busy (rule : BaseFeeRule) (b : BlockGas) : Bool :=
  rule.gasTarget b.gasLimit != 0 && rule.gasTarget b.gasLimit < b.gasUsed.toNat

/-- What a block with headroom does to the fee. -/
structure Moves (rule : BaseFeeRule) (b : BlockGas) (fee fee' : UInt64) : Prop where
  minimum : rule.minBaseFeePerGas ≤ fee'
  full : rule.gasTarget b.gasLimit ≤ b.gasUsed.toNat → fee.toNat + (rule.busy b).toNat ≤ fee'.toNat
  slack : b.gasUsed.toNat ≤ rule.gasTarget b.gasLimit → fee' ≤ max fee rule.minBaseFeePerGas

/-- Every block of the chain has headroom for the fee that it starts from. -/
def HasHeadroom (rule : BaseFeeRule) : UInt64 → List BlockGas → Prop
  | _, [] => True
  | fee, b :: blocks => FeeHeadroom rule b.gasUsed b.gasLimit fee ∧
      ∀ fee' ∈ rule.next b.gasUsed b.gasLimit fee, rule.HasHeadroom fee' blocks

variable {rule : BaseFeeRule} {fee : UInt64} {b : BlockGas} (he : rule.elasticityMultiplier ≠ 0)
  (hd : rule.baseFeeMaxChangeDenominator ≠ 0)

include he hd

/-- A block without gas takes one share of the denominator. -/
theorem next_idle (hfits : rule.baseFeeMaxChangeDenominator < 2 ^ 64) (hb : rule.Idle b) :
    ∃ fee', rule.next b.gasUsed b.gasLimit fee = some fee' ∧ fee'.toNat =
      decay rule.baseFeeMaxChangeDenominator rule.minBaseFeePerGas.toNat fee.toNat := by
  have hzero : b.gasUsed.toNat = 0 := by rw [hb.unused, UInt64.toNat_zero]
  have htarget : rule.gasTarget b.gasLimit < 2 ^ 64 :=
    (Nat.div_le_self _ _).trans_lt b.gasLimit.toNat_lt
  have hpos : 0 < rule.gasTarget b.gasLimit := Nat.pos_of_ne_zero hb.target
  have hdivisor : rule.gasTarget b.gasLimit * rule.baseFeeMaxChangeDenominator < 2 ^ 128 := by
    calc rule.gasTarget b.gasLimit * rule.baseFeeMaxChangeDenominator
        < 2 ^ 64 * 2 ^ 64 := Nat.mul_lt_mul'' htarget hfits
      _ = 2 ^ 128 := by norm_num
  have hshare : fee.toNat * (rule.gasTarget b.gasLimit - b.gasUsed.toNat) /
      (rule.gasTarget b.gasLimit * rule.baseFeeMaxChangeDenominator) =
      fee.toNat / rule.baseFeeMaxChangeDenominator := by
    rw [hzero, Nat.sub_zero, Nat.mul_comm, Nat.mul_div_mul_left _ _ hpos]
  apply next_of_nextExact he hd
  rw [nextExact_below he hd (by omega) hshare, if_pos hdivisor, decay]

/-- A block with headroom. -/
theorem exists_moves (h : FeeHeadroom rule b.gasUsed b.gasLimit fee) :
    ∃ fee', rule.next b.gasUsed b.gasLimit fee = some fee' ∧ rule.Moves b fee fee' := by
  obtain ⟨n, hn⟩ := (exists_nextExact_iff he hd).mpr h
  obtain ⟨fee', hnext, rfl⟩ := next_of_nextExact he hd hn
  obtain ⟨hmin, hbase⟩ := nextExact_bounds he hd hn
  refine ⟨fee', hnext, UInt64.le_iff_toNat_le.mpr hmin, fun hfull => ?_, fun hslack => ?_⟩
  · by_cases hbusy : rule.busy b = true
    · rw [busy, Bool.and_eq_true, bne_iff_ne, decide_eq_true_eq] at hbusy
      rw [nextExact_above he hd hbusy.1 hbusy.2 rfl] at hn
      split_ifs at hn
      have hfee := Option.some.inj hn
      have hbit := Bool.toNat_le (rule.busy b)
      omega
    · rw [Bool.not_eq_true] at hbusy
      rw [hbusy, Bool.toNat_false]
      exact hbase hfull
  · rw [UInt64.le_iff_toNat_le, toNat_max]
    by_cases hat : rule.gasTarget b.gasLimit = 0 ∨ b.gasUsed.toNat = rule.gasTarget b.gasLimit
    · rw [nextExact_atTarget he hd hat, Option.some.injEq] at hn
      exact hn.ge
    · rw [nextExact_below he hd (by omega) rfl] at hn
      split_ifs at hn
      rw [← Option.some.inj hn]
      exact max_le_max_right _ (Nat.sub_le _ _)

end BaseFeeRule

section Runs

variable {installed : List ArkivProtocolScheduleEntry} {fee : UInt64} {blocks : List BlockGas}

/-- A chain without gas is an iteration of `decay`. -/
theorem feeAfter_idle {rule : BaseFeeRule}
    (hrule : (arkivProtocolParamsLatest installed).baseFeeRule = rule)
    (he : rule.elasticityMultiplier ≠ 0) (hd : rule.baseFeeMaxChangeDenominator ≠ 0)
    (hfits : rule.baseFeeMaxChangeDenominator < 2 ^ 64) (hidle : ∀ b ∈ blocks, rule.Idle b) :
    ∃ fee', feeAfter installed fee blocks = some fee' ∧ fee'.toNat =
      (decay rule.baseFeeMaxChangeDenominator rule.minBaseFeePerGas.toNat)^[blocks.length]
        fee.toNat := by
  induction blocks generalizing fee with
  | nil => exact ⟨fee, rfl, rfl⟩
  | cons b blocks ih =>
    obtain ⟨hb, hrest⟩ := List.forall_mem_cons.mp hidle
    obtain ⟨next, hnext, hdecay⟩ := @BaseFeeRule.next_idle rule fee b he hd hfits hb
    obtain ⟨fee', hafter, hfee'⟩ := @ih next hrest
    refine ⟨fee', ?_, ?_⟩
    · rw [feeAfter_cons (by rw [calcNextBlockBaseFee, hrule, hnext]), hafter]
    · rw [hfee', hdecay, List.length_cons, Function.iterate_succ_apply]

/-- A chain with headroom keeps the bounds of its blocks. -/
theorem feeAfter_moves {rule : BaseFeeRule}
    (hrule : (arkivProtocolParamsLatest installed).baseFeeRule = rule)
    (he : rule.elasticityMultiplier ≠ 0) (hd : rule.baseFeeMaxChangeDenominator ≠ 0)
    (hroom : rule.HasHeadroom fee blocks) :
    ∃ fee', feeAfter installed fee blocks = some fee' ∧
      (blocks ≠ [] → rule.minBaseFeePerGas ≤ fee') ∧
      ((∀ b ∈ blocks, rule.gasTarget b.gasLimit ≤ b.gasUsed.toNat) →
        fee.toNat + blocks.countP rule.busy ≤ fee'.toNat) ∧
      ((∀ b ∈ blocks, b.gasUsed.toNat ≤ rule.gasTarget b.gasLimit) →
        fee' ≤ max fee rule.minBaseFeePerGas) := by
  induction blocks generalizing fee with
  | nil =>
    refine ⟨fee, rfl, by simp, by simp, fun _ => ?_⟩
    rw [UInt64.le_iff_toNat_le, BaseFeeRule.toNat_max]
    exact le_max_left _ _
  | cons b blocks ih =>
    obtain ⟨hb, hrest⟩ := hroom
    obtain ⟨next, hnext, hmoves⟩ := BaseFeeRule.exists_moves he hd hb
    obtain ⟨fee', hafter, hmin, hup, hdown⟩ := ih (hrest next hnext)
    refine ⟨fee', ?_, fun _ => ?_, fun hfull => ?_, fun hslack => ?_⟩
    · rw [feeAfter_cons (by rw [calcNextBlockBaseFee, hrule, hnext]), hafter]
    · by_cases hlast : blocks = []
      · rw [hlast] at hafter
        rw [← Option.some.inj hafter]
        exact hmoves.minimum
      · exact hmin hlast
    · obtain ⟨hbfull, hfull⟩ := List.forall_mem_cons.mp hfull
      have hstep := hmoves.full hbfull
      have hlater := hup hfull
      rw [List.countP_cons]
      cases hbusy : rule.busy b <;> simp [hbusy] at hstep ⊢ <;> omega
    · obtain ⟨hbslack, hslack⟩ := List.forall_mem_cons.mp hslack
      have hstep := hmoves.slack hbslack
      have hlater := hdown hslack
      have hnow := hmoves.minimum
      rw [UInt64.le_iff_toNat_le, BaseFeeRule.toNat_max] at hstep hlater ⊢
      omega

end Runs

variable {s : RemoteProtocolSchedule} {fee : UInt64} {blocks : List BlockGas}

/-- **Empty chains**: under a valid schedule, whatever part of it is installed, a chain of blocks
    without gas brings the fee to the denominator less one, or to the minimum where that is more:
    what is above shrinks by one share of the denominator a block, and a fee of `n` wei is at rest
    after `n + 1` blocks. A fee that is lower already stays. -/
theorem feeAfter_empty (h : s.validate = .ok ()) {rule : BaseFeeRule}
    (hrule : (arkivProtocolParamsLatest (selectedEntries s)).baseFeeRule = rule)
    (hfits : rule.baseFeeMaxChangeDenominator < 2 ^ 64) (hidle : ∀ b ∈ blocks, rule.Idle b) :
    ∃ fee', feeAfter (selectedEntries s) fee blocks = some fee' ∧
      rule.baseFeeMaxChangeDenominator ^ blocks.length * fee'.toNat ≤
        (rule.baseFeeMaxChangeDenominator - 1) ^ blocks.length * fee.toNat +
          rule.baseFeeMaxChangeDenominator ^ blocks.length *
            max (rule.baseFeeMaxChangeDenominator - 1) rule.minBaseFeePerGas.toNat ∧
      (fee.toNat < blocks.length → fee'.toNat =
        restingFee rule.baseFeeMaxChangeDenominator rule.minBaseFeePerGas.toNat fee.toNat) := by
  obtain ⟨he, hd⟩ := latest_ne_zero h
  rw [hrule] at he hd
  obtain ⟨fee', hafter, hfee'⟩ := @feeAfter_idle _ fee _ _ hrule he hd hfits hidle
  have hpos := Nat.pos_of_ne_zero hd
  refine ⟨fee', hafter, ?_, fun hlong => ?_⟩
  · rw [hfee']
    exact pow_mul_iterate_decay_le hpos blocks.length
  · rw [hfee']
    exact iterate_decay hpos hlong

/-- **Chains with headroom**: under a valid schedule the fee of a chain whose blocks have headroom
    is at least the minimum; while no block is below its target it gains a wei on every block above
    it, and while no block is above its target it does not rise but to the minimum. -/
theorem feeAfter_bounds (h : s.validate = .ok ()) {rule : BaseFeeRule}
    (hrule : (arkivProtocolParamsLatest (selectedEntries s)).baseFeeRule = rule)
    (hroom : rule.HasHeadroom fee blocks) :
    ∃ fee', feeAfter (selectedEntries s) fee blocks = some fee' ∧
      (blocks ≠ [] → rule.minBaseFeePerGas ≤ fee') ∧
      ((∀ b ∈ blocks, rule.gasTarget b.gasLimit ≤ b.gasUsed.toNat) →
        fee.toNat + blocks.countP rule.busy ≤ fee'.toNat) ∧
      ((∀ b ∈ blocks, b.gasUsed.toNat ≤ rule.gasTarget b.gasLimit) →
        fee' ≤ max fee rule.minBaseFeePerGas) := by
  obtain ⟨he, hd⟩ := latest_ne_zero h
  rw [hrule] at he hd
  exact feeAfter_moves hrule he hd hroom

section UsualChain

/-- The rule of the usual schedule. -/
def usualRule : BaseFeeRule := ⟨1, 2, 8⟩

theorem usualRule_eq :
    (arkivProtocolParamsLatest (selectedEntries usualSchedule)).baseFeeRule = usualRule := by
  decide +kernel

/-- Twelve wei come down to seven. -/
theorem feeAfter_empty_usualSchedule : ∃ fee', feeAfter (selectedEntries usualSchedule) 12
    (List.replicate 13 ⟨0, 30000000⟩) = some fee' ∧ fee'.toNat = 7 := by
  have hidle : ∀ b ∈ List.replicate 13 (⟨0, 30000000⟩ : BlockGas), usualRule.Idle b := by
    intro b hb
    rw [List.eq_of_mem_replicate hb]
    exact ⟨rfl, by decide⟩
  obtain ⟨fee', hafter, -, hrest⟩ :=
    @feeAfter_empty usualSchedule 12 _ (by decide) _ usualRule_eq (by decide) hidle
  exact ⟨fee', hafter, hrest (by decide)⟩

/-- Two full blocks with a block at the target in between. -/
theorem feeAfter_bounds_usualSchedule : ∃ fee', feeAfter (selectedEntries usualSchedule) 30000000
    [⟨30000000, 30000000⟩, ⟨15000000, 30000000⟩, ⟨30000000, 30000000⟩] = some fee' ∧
      30000002 ≤ fee'.toNat := by
  have hfirst : usualRule.next 30000000 30000000 30000000 = some 33750000 := by decide +kernel
  have hsecond : usualRule.next 15000000 30000000 33750000 = some 33750000 := by decide +kernel
  have hroom : usualRule.HasHeadroom 30000000
      [⟨30000000, 30000000⟩, ⟨15000000, 30000000⟩, ⟨30000000, 30000000⟩] := by
    refine ⟨.inr (.inr (by decide +kernel)), fun fee hfee => ?_⟩
    obtain rfl := Option.some.inj (hfirst.symm.trans hfee)
    refine ⟨.inr (.inl (by decide +kernel)), fun fee hfee => ?_⟩
    obtain rfl := Option.some.inj (hsecond.symm.trans hfee)
    exact ⟨.inr (.inr (by decide +kernel)), fun _ _ => trivial⟩
  obtain ⟨fee', hafter, -, hup, -⟩ := feeAfter_bounds (by decide) usualRule_eq hroom
  exact ⟨fee', hafter, hup (by decide +kernel)⟩

end UsualChain

end Arkiv
