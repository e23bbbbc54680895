import Mathlib
import Arkiv.Model.ProtocolSchedule

/-!
# The published schedule

The document that the schedule service publishes, its validation, the entries of
it that a node installs, and the base fee that the installed entries lead to.

## Main definitions

- `RemoteProtocolSchedule` — the document, with `validate` and `entries`
- `selectedEntries` — what is installed of it
- `arkivProtocolParamsLatest` — the parameters of the last installed entry
- `calcNextBlockBaseFee` — the base fee of the next block
-/

namespace Arkiv

structure RemotePayloadProviderPaymentParams where
  enabled : Bool
  providerShareBps : UInt16
  minimumPayment : UInt64
deriving DecidableEq, Repr

structure RemoteProtocolScheduleEntry where
  activationBlock : UInt64
  minBaseFeePerGas : UInt64
  elasticityMultiplier : ℕ
  baseFeeMaxChangeDenominator : ℕ
  maxBlockGasLimit : UInt64
  payloadProviderPayment : RemotePayloadProviderPaymentParams
deriving DecidableEq, Repr

structure RemoteProtocolSchedule where
  chainId : UInt64
  version : UInt64
  currentBlock : Option UInt64
  schedule : List RemoteProtocolScheduleEntry
deriving DecidableEq, Repr

/-- The errors of `validate`. -/
inductive ScheduleError where
  | empty
  | firstNotAtZero
  | notIncreasing
  | elasticityZero
  | denominatorZero
  | gasLimitTooLow
  | shareAboveDenominator
  | minimumPaymentZero
deriving DecidableEq, Repr

def ScheduleError.message : ScheduleError → String
  | empty => "schedule must not be empty"
  | firstNotAtZero => "first schedule entry must activate at block 0"
  | notIncreasing => "schedule activation blocks must be strictly increasing"
  | elasticityZero => "elasticityMultiplier must be greater than 0"
  | denominatorZero => "baseFeeMaxChangeDenominator must be greater than 0"
  | gasLimitTooLow => "maxBlockGasLimit is below the minimum viable gas limit"
  | shareAboveDenominator => "payloadProviderPayment.providerShareBps must be <= 10000"
  | minimumPaymentZero =>
    "payloadProviderPayment.minimumPayment must be greater than 0 when enabled"

namespace RemotePayloadProviderPaymentParams

def validate (p : RemotePayloadProviderPaymentParams) : Except ScheduleError Unit :=
  if paymentBpsDenominator < p.providerShareBps then .error .shareAboveDenominator
  else if p.enabled && p.minimumPayment == 0 then .error .minimumPaymentZero
  else .ok ()

def toAlloy (p : RemotePayloadProviderPaymentParams) : ArkivPayloadProviderPaymentParams where
  enabled := p.enabled
  providerShareBps := p.providerShareBps
  minimumPayment := p.minimumPayment

end RemotePayloadProviderPaymentParams

namespace RemoteProtocolScheduleEntry

def validate (e : RemoteProtocolScheduleEntry) : Except ScheduleError Unit :=
  if e.elasticityMultiplier = 0 then .error .elasticityZero
  else if e.baseFeeMaxChangeDenominator = 0 then .error .denominatorZero
  else if e.maxBlockGasLimit < 5000 then .error .gasLimitTooLow
  else e.payloadProviderPayment.validate

def toAlloy (e : RemoteProtocolScheduleEntry) : ArkivProtocolScheduleEntry where
  activationBlock := e.activationBlock
  params :=
    { minBaseFeePerGas := e.minBaseFeePerGas
      elasticityMultiplier := e.elasticityMultiplier
      baseFeeMaxChangeDenominator := e.baseFeeMaxChangeDenominator
      maxBlockGasLimit := e.maxBlockGasLimit
      payloadProviderPayment := e.payloadProviderPayment.toAlloy }

end RemoteProtocolScheduleEntry

namespace RemoteProtocolSchedule

/-- The loop over the entries, with the activation block of the entry before. -/
def validateEntries (lastActivation : Option UInt64) :
    List RemoteProtocolScheduleEntry → Except ScheduleError Unit
  | [] => .ok ()
  | e :: es =>
    if lastActivation.any fun last => e.activationBlock ≤ last then .error .notIncreasing
    else do
      e.validate
      validateEntries (some e.activationBlock) es

def validate (s : RemoteProtocolSchedule) : Except ScheduleError Unit :=
  match s.schedule with
  | [] => .error .empty
  | first :: _ =>
    if first.activationBlock ≠ 0 then .error .firstNotAtZero else validateEntries none s.schedule

def entries (s : RemoteProtocolSchedule) : List ArkivProtocolScheduleEntry :=
  s.schedule.map RemoteProtocolScheduleEntry.toAlloy

end RemoteProtocolSchedule

/-- Entries above `currentBlock` are held back; when none is left the first one is installed. -/
def selectedEntries (s : RemoteProtocolSchedule) : List ArkivProtocolScheduleEntry :=
  let entries :=
    match s.currentBlock with
    | some currentBlock => s.entries.filter fun entry => entry.activationBlock ≤ currentBlock
    | none => s.entries
  if entries = [] then s.entries.take 1 else entries

def arkivProtocolParamsLatest (installed : List ArkivProtocolScheduleEntry) :
    ArkivProtocolParams :=
  (installed.getLast?.map (·.params)).getD ArkivProtocolParams.default

/-- The parameters that the base fee is computed from. -/
structure BaseFeeRule where
  minBaseFeePerGas : UInt64
  elasticityMultiplier : ℕ
  baseFeeMaxChangeDenominator : ℕ
deriving DecidableEq, Repr

def ArkivProtocolParams.baseFeeRule (p : ArkivProtocolParams) : BaseFeeRule where
  minBaseFeePerGas := p.minBaseFeePerGas
  elasticityMultiplier := p.elasticityMultiplier
  baseFeeMaxChangeDenominator := p.baseFeeMaxChangeDenominator

/-- The EIP-1559 rule with a floor, in wrapping 128-bit and 64-bit arithmetic; `none` is a
    division by zero. -/
def BaseFeeRule.next (rule : BaseFeeRule) (gasUsed gasLimit baseFee : UInt64) : Option UInt64 :=
  let floor (fee : UInt64) : UInt64 := max fee rule.minBaseFeePerGas
  if rule.elasticityMultiplier = 0 ∨ rule.baseFeeMaxChangeDenominator = 0 then some (floor baseFee)
  else
    let gasTarget := UInt64.ofNat (gasLimit.toNat / rule.elasticityMultiplier)
    if gasTarget = 0 then some (floor baseFee)
    else
      let change (gasDelta : UInt64) : Option ℕ :=
        let divisor := gasTarget.toNat * rule.baseFeeMaxChangeDenominator % 2 ^ 128
        if divisor = 0 then none else some (baseFee.toNat * gasDelta.toNat / divisor)
      if gasUsed = gasTarget then some (floor baseFee)
      else if gasTarget < gasUsed then
        (change (gasUsed - gasTarget)).map fun increase =>
          floor (baseFee + UInt64.ofNat (max 1 increase))
      else
        (change (gasTarget - gasUsed)).map fun decrease =>
          floor (UInt64.ofNat (baseFee.toNat - (UInt64.ofNat decrease).toNat))

/-- The rule of the last installed entry; the caller's parameters are not used. -/
def calcNextBlockBaseFee (installed : List ArkivProtocolScheduleEntry)
    (gasUsed gasLimit baseFee : UInt64) : Option UInt64 :=
  (arkivProtocolParamsLatest installed).baseFeeRule.next gasUsed gasLimit baseFee

end Arkiv
