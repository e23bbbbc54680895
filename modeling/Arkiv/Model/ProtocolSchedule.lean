import Mathlib

/-!
# The protocol schedule

The block-numbered protocol parameters that a node has installed.

## Main definitions

- `ArkivProtocolParams` — the parameters of one entry
- `arkivProtocolParamsForBlock` — the parameters in force at a block
-/

namespace Arkiv

/-- Basis-point denominator for payload-provider payment splits. -/
def paymentBpsDenominator : UInt16 := 10000

structure ArkivPayloadProviderPaymentParams where
  enabled : Bool
  providerShareBps : UInt16
  minimumPayment : UInt64
deriving DecidableEq, Repr

structure ArkivProtocolParams where
  minBaseFeePerGas : UInt64
  elasticityMultiplier : ℕ
  baseFeeMaxChangeDenominator : ℕ
  maxBlockGasLimit : UInt64
  payloadProviderPayment : ArkivPayloadProviderPaymentParams
deriving DecidableEq, Repr

/-- The defaults: Ethereum's base-fee parameters, no payment. -/
def ArkivProtocolParams.default : ArkivProtocolParams where
  minBaseFeePerGas := 440000000
  elasticityMultiplier := 2
  baseFeeMaxChangeDenominator := 8
  maxBlockGasLimit := 0xFFFFFFFFFFFFFFFF
  payloadProviderPayment := ⟨false, 0, 0⟩

structure ArkivProtocolScheduleEntry where
  activationBlock : UInt64
  params : ArkivProtocolParams
deriving DecidableEq, Repr

/-- The last entry that is active at the block. -/
def arkivProtocolParamsForBlock (schedule : List ArkivProtocolScheduleEntry)
    (blockNumber : UInt64) : ArkivProtocolParams :=
  ((schedule.reverse.find? fun entry => entry.activationBlock ≤ blockNumber).map
    (·.params)).getD ArkivProtocolParams.default

end Arkiv
