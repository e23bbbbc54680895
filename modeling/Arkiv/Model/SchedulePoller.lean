import Mathlib
import Arkiv.Lib.Text
import Arkiv.Model.Lexer
import Arkiv.Model.RemoteSchedule

/-!
# The schedule poller

What the node does with a document that it has polled from the schedule service
or kept on disk: decode, validate, compare the version, install. The two pieces
of global state are written one after the other.

## Main definitions

- `SerdeJson` — the JSON decoder
- `parseU64String`, `parseRemoteSchedule` — from a body to a valid schedule
- `Globals` — the installed entries and the last accepted version
- `installSchedule`, `fetchStoreAndInstall`, `loadPersistedSchedule` — the updates
-/

namespace Arkiv

/-- The errors of `parse_u64_string`. -/
inductive QuantityError where
  | empty
  | parseInt
deriving DecidableEq, Repr

/-- The value of a digit in a radix up to sixteen. -/
def toDigit (radix : ℕ) (c : Char) : Option ℕ :=
  let value :=
    if '0' ≤ c && c ≤ '9' then some (c.toNat - '0'.toNat)
    else if 'a' ≤ c && c ≤ 'f' then some (c.toNat - 'a'.toNat + 10)
    else if 'A' ≤ c && c ≤ 'F' then some (c.toNat - 'A'.toNat + 10)
    else none
  value.filter (· < radix)

/-- `u64::from_str_radix`: digits, with or without a plus sign in front. -/
def u64FromStrRadix (radix : ℕ) (s : List Char) : Option UInt64 :=
  let digits :=
    match s with
    | '+' :: rest => rest
    | _ => s
  if digits = [] then none
  else
    (digits.foldlM (fun acc c => do
      let d ← toDigit radix c
      let n := acc * radix + d
      if n < 2 ^ 64 then some n else none) 0).map UInt64.ofNat

def parseU64String (raw : List Char) : Except QuantityError UInt64 :=
  let raw := Text.trim isWhitespace raw
  if raw = [] then .error .empty
  else
    let n :=
      match raw with
      | '0' :: 'x' :: hex => u64FromStrRadix 16 hex
      | _ => u64FromStrRadix 10 raw
    match n with
    | some n => .ok n
    | none => .error .parseInt

/-- `serde_json::from_str` for the published document; quantities in strings are read by the given
    function. -/
class SerdeJson where
  fromStr : (List Char → Except QuantityError UInt64) → List Char → Option RemoteProtocolSchedule

/-- Why a body is not taken over. -/
inductive PollError where
  | decodeJson
  | invalid (e : ScheduleError)
  | olderVersion (version lastVersion : UInt64)
deriving DecidableEq, Repr

/-- The state of the process behind the readers of the schedule. -/
structure Globals where
  schedule : List ArkivProtocolScheduleEntry
  lastAcceptedVersion : UInt64
deriving DecidableEq, Repr

/-- Process start. -/
def Globals.start : Globals := ⟨[], 0⟩

section Poller

variable [SerdeJson]

def parseRemoteSchedule (body : List Char) : Except PollError RemoteProtocolSchedule :=
  match SerdeJson.fromStr parseU64String body with
  | none => .error .decodeJson
  | some schedule =>
    match schedule.validate with
    | .error e => .error (.invalid e)
    | .ok () => .ok schedule

end Poller

def installArkivProtocolSchedule (g : Globals) (entries : List ArkivProtocolScheduleEntry) :
    Globals :=
  { g with schedule := entries }

/-- The states that the process is in while a schedule is installed: with the new entries, then
    with the new version. -/
def installSchedule (g : Globals) (schedule : RemoteProtocolSchedule) :
    Except PollError (Globals × Globals) :=
  let lastVersion := g.lastAcceptedVersion
  if lastVersion ≠ 0 ∧ schedule.version < lastVersion then
    .error (.olderVersion schedule.version lastVersion)
  else
    let installed := installArkivProtocolSchedule g (selectedEntries schedule)
    .ok (installed, { installed with lastAcceptedVersion := schedule.version })

section Poller

variable [SerdeJson]

/-- One poll, from the body on. That the body is written to disk afterwards changes no global. -/
def fetchStoreAndInstall (g : Globals) (body : List Char) : Except PollError (Globals × Globals) :=
  parseRemoteSchedule body >>= installSchedule g

/-- The file kept from an earlier poll, when there is one. -/
def loadPersistedSchedule (g : Globals) (body : List Char) : Except PollError (Globals × Globals) :=
  parseRemoteSchedule body >>= installSchedule g

end Poller

end Arkiv
