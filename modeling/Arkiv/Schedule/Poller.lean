import Mathlib
import Arkiv.Model.PayloadReference
import Arkiv.Model.SchedulePoller
import Arkiv.Schedule.BaseFee

/-!
# The last good schedule stays

A process reads bodies one after the other, whatever they are. What is installed
is the selection of the last document that passed, also between the two writes of
an update, and a document that fails leaves no trace.

## Main definitions

- `Body` — a body that was polled or found on disk
- `Moment` — the globals with the documents accepted so far
- `LastGood` — what readers see at a moment
- `lastGood_of_run` — every moment of every run, and the bodies that are refused
-/

namespace Arkiv

inductive Body where
  | persisted (text : List Char)
  | polled (text : List Char)

def Body.text : Body → List Char
  | persisted text => text
  | polled text => text

/-- Parameters that consensus code can compute with. -/
structure ArkivProtocolParams.Usable (p : ArkivProtocolParams) : Prop where
  elasticity : 0 < p.elasticityMultiplier
  denominator : 0 < p.baseFeeMaxChangeDenominator
  share : p.payloadProviderPayment.providerShareBps ≤ 10000
  payment : p.payloadProviderPayment.enabled = true → 0 < p.payloadProviderPayment.minimumPayment

theorem ArkivProtocolParams.usable_default : ArkivProtocolParams.default.Usable :=
  ⟨by decide, by decide, by decide, by decide⟩

theorem ArkivProtocolParams.Usable.validate {p : ArkivProtocolParams} (h : p.Usable) :
    validatePayloadProviderPaymentParams p.payloadProviderPayment = .ok () := by
  have hshare : p.payloadProviderPayment.providerShareBps ≤ paymentBpsDenominator := h.share
  unfold validatePayloadProviderPaymentParams ensure
  rw [if_pos (by simpa using hshare)]

theorem RemoteProtocolScheduleEntry.usable {e : RemoteProtocolScheduleEntry}
    (h : e.validate = .ok ()) : e.toAlloy.params.Usable := by
  obtain ⟨he, hd⟩ := e.ne_zero_of_validate h
  rw [validate] at h
  split_ifs at h
  rw [RemotePayloadProviderPaymentParams.validate] at h
  split_ifs at h with hshare hpayment
  refine ⟨Nat.pos_of_ne_zero he, Nat.pos_of_ne_zero hd, ?_, fun henabled => ?_⟩
  · exact UInt16.not_lt.mp hshare
  · have henabled' : e.payloadProviderPayment.enabled = true := henabled
    rw [henabled', Bool.true_and, beq_iff_eq] at hpayment
    exact UInt64.pos_iff_ne_zero.mpr hpayment

theorem usable_of_mem_selectedEntries {s : RemoteProtocolSchedule} (h : s.validate = .ok ())
    {entry : ArkivProtocolScheduleEntry} (hentry : entry ∈ selectedEntries s) :
    entry.params.Usable := by
  rw [selectedEntries_eq h] at hentry
  obtain ⟨e, he, rfl⟩ := List.mem_map.mp (List.mem_filter.mp hentry).1
  exact e.usable (RemoteProtocolSchedule.validate_mem h e he)

/-- Entries or defaults: what a reader gets from usable entries is usable. -/
theorem usable_forBlock {installed : List ArkivProtocolScheduleEntry}
    (h : ∀ e ∈ installed, e.params.Usable) (n : UInt64) :
    (arkivProtocolParamsForBlock installed n).Usable := by
  rw [arkivProtocolParamsForBlock]
  cases hfind : installed.reverse.find? fun entry => entry.activationBlock ≤ n with
  | none => exact ArkivProtocolParams.usable_default
  | some e => exact h e (List.mem_reverse.mp (List.mem_of_find?_eq_some hfind))

theorem usable_latest {installed : List ArkivProtocolScheduleEntry}
    (h : ∀ e ∈ installed, e.params.Usable) : (arkivProtocolParamsLatest installed).Usable := by
  rw [arkivProtocolParamsLatest]
  cases hlast : installed.getLast? with
  | none => exact ArkivProtocolParams.usable_default
  | some e => exact h e (List.mem_of_getLast? hlast)

/-- The globals, with the documents accepted so far, the first one in front. -/
structure Moment where
  globals : Globals
  accepted : List RemoteProtocolSchedule

namespace Moment

/-- Process start. -/
def start : Moment := ⟨Globals.start, []⟩

section Run

variable [SerdeJson]

/-- The update for a body, with the document in it. -/
def attempt (g : Globals) (x : Body) :
    Except PollError (RemoteProtocolSchedule × Globals × Globals) := do
  let writes ← match x with
    | .persisted text => loadPersistedSchedule g text
    | .polled text => fetchStoreAndInstall g text
  let schedule ← parseRemoteSchedule x.text
  return (schedule, writes)

/-- The moments between the writes that a body leads to. -/
def during (m : Moment) (x : Body) : List Moment :=
  match attempt m.globals x with
  | .ok (schedule, installed, _) => [⟨installed, m.accepted ++ [schedule]⟩]
  | .error _ => []

def after (m : Moment) (x : Body) : Moment :=
  match attempt m.globals x with
  | .ok (schedule, _, stored) => ⟨stored, m.accepted ++ [schedule]⟩
  | .error _ => m

/-- Every moment of a run. -/
def moments (m : Moment) : List Body → List Moment
  | [] => [m]
  | x :: xs => m :: (m.during x ++ (m.after x).moments xs)

/-- The body has no valid document in it, or one below the last accepted version. -/
def Refuses (m : Moment) (x : Body) : Prop :=
  ∀ schedule, SerdeJson.fromStr parseU64String x.text = some schedule →
    schedule.validate = .ok () → ∃ last ∈ m.accepted.getLast?, schedule.version < last.version

end Run

/-- What readers see: the selection of the last accepted document, or nothing before the first. -/
structure LastGood (m : Moment) : Prop where
  valid : ∀ s ∈ m.accepted, s.validate = .ok ()
  schedule : m.globals.schedule = m.accepted.getLast?.elim [] selectedEntries
  versions : m.accepted.Pairwise fun s s' => s.version ≤ s'.version
  usable : ∀ e ∈ m.globals.schedule, e.params.Usable
  forBlock : ∀ n, (arkivProtocolParamsForBlock m.globals.schedule n).Usable
  latest : (arkivProtocolParamsLatest m.globals.schedule).Usable
  payment : ∀ n, validatePayloadProviderPaymentParams
    (arkivProtocolParamsForBlock m.globals.schedule n).payloadProviderPayment = .ok ()

/-- The readers' part follows from the installed entries. -/
theorem LastGood.of_schedule {m : Moment} (hvalid : ∀ s ∈ m.accepted, s.validate = .ok ())
    (hschedule : m.globals.schedule = m.accepted.getLast?.elim [] selectedEntries)
    (hversions : m.accepted.Pairwise fun s s' => s.version ≤ s'.version) : m.LastGood := by
  have husable : ∀ e ∈ m.globals.schedule, e.params.Usable := by
    intro e he
    rw [hschedule] at he
    cases hlast : m.accepted.getLast? with
    | none =>
      rw [hlast] at he
      cases he
    | some s =>
      rw [hlast] at he
      exact usable_of_mem_selectedEntries (hvalid s (List.mem_of_getLast? hlast)) he
  exact ⟨hvalid, hschedule, hversions, husable, usable_forBlock husable, usable_latest husable,
    fun n => (usable_forBlock husable n).validate⟩

/-- Between two bodies the stored version is that of the last accepted document. -/
structure Settled (m : Moment) : Prop where
  good : m.LastGood
  version : m.globals.lastAcceptedVersion = m.accepted.getLast?.elim 0 (·.version)

theorem settled_start : start.Settled :=
  ⟨.of_schedule (by simp [start]) rfl List.Pairwise.nil, rfl⟩

/-- The version gate of a settled state compares with the last accepted document. -/
theorem Settled.gate {m : Moment} (h : m.Settled) {version : UInt64} :
    (m.globals.lastAcceptedVersion ≠ 0 ∧ version < m.globals.lastAcceptedVersion) ↔
      ∃ last ∈ m.accepted.getLast?, version < last.version := by
  rw [h.version]
  cases m.accepted.getLast? with
  | none => simp
  | some last =>
    simp only [Option.elim_some, Option.mem_def, Option.some.injEq, exists_eq_left']
    refine ⟨fun hlt => hlt.2, fun hlt => ⟨?_, hlt⟩⟩
    rintro hzero
    rw [hzero, UInt64.lt_iff_toNat_lt] at hlt
    exact absurd hlt (Nat.not_lt_zero _)

/-- A document that passes the gate joins the accepted ones. -/
theorem Settled.append {m : Moment} (h : m.Settled) {schedule : RemoteProtocolSchedule}
    (hvalid : schedule.validate = .ok ())
    (hgate : ¬(m.globals.lastAcceptedVersion ≠ 0 ∧
      schedule.version < m.globals.lastAcceptedVersion)) (version : UInt64) :
    LastGood ⟨⟨selectedEntries schedule, version⟩, m.accepted ++ [schedule]⟩ := by
  refine .of_schedule ?_ (by rw [List.getLast?_concat, Option.elim_some]) ?_
  · intro s hs
    obtain hs | hs := List.mem_append.mp hs
    · exact h.good.valid s hs
    · rw [List.mem_singleton.mp hs]
      exact hvalid
  · refine List.pairwise_append.mpr ⟨h.good.versions, List.pairwise_singleton _ _, ?_⟩
    intro s hs s' hs'
    rw [List.mem_singleton.mp hs']
    obtain ⟨last, hlast⟩ := Option.isSome_iff_exists.mp
      (List.getLast?_isSome.mpr (List.ne_nil_of_mem hs))
    have hle : last.version ≤ schedule.version :=
      UInt64.not_lt.mp fun hlt => hgate (h.gate.mpr ⟨last, hlast, hlt⟩)
    obtain ⟨init, heq⟩ := List.getLast?_eq_some_iff.mp hlast
    have hversions := h.good.versions
    rw [heq] at hs hversions
    obtain hs | hs := List.mem_append.mp hs
    · have hbefore := (List.pairwise_append.mp hversions).2.2 s hs last
        (List.mem_singleton_self last)
      exact UInt64.le_trans hbefore hle
    · rw [List.mem_singleton.mp hs]
      exact hle

section Run

variable [SerdeJson] {m : Moment} {x : Body}

theorem parseRemoteSchedule_eq_ok {body : List Char} {schedule : RemoteProtocolSchedule} :
    parseRemoteSchedule body = .ok schedule ↔
      SerdeJson.fromStr parseU64String body = some schedule ∧ schedule.validate = .ok () := by
  rw [parseRemoteSchedule]
  cases hread : SerdeJson.fromStr parseU64String body with
  | none => simp
  | some s =>
    dsimp only
    cases hvalid : s.validate with
    | error e =>
      refine iff_of_false (by simp) ?_
      rintro ⟨heq, hok⟩
      rw [Option.some.inj heq, hok] at hvalid
      cases hvalid
    | ok u =>
      rw [Except.ok.injEq, Option.some.injEq]
      exact ⟨fun heq => ⟨heq, heq ▸ hvalid⟩, fun h => h.1⟩

omit [SerdeJson] in
theorem installSchedule_eq_ok {g installed stored : Globals} {schedule : RemoteProtocolSchedule} :
    installSchedule g schedule = .ok (installed, stored) ↔
      ¬(g.lastAcceptedVersion ≠ 0 ∧ schedule.version < g.lastAcceptedVersion) ∧
        installed = ⟨selectedEntries schedule, g.lastAcceptedVersion⟩ ∧
        stored = ⟨selectedEntries schedule, schedule.version⟩ := by
  unfold installSchedule
  dsimp only
  split
  next hold => exact iff_of_false (by simp) fun h => h.1 hold
  next hnew =>
    rw [Except.ok.injEq, Prod.mk.injEq, and_iff_right hnew, eq_comm (b := installed),
      eq_comm (b := stored)]
    rfl

/-- What an update does, and when. -/
theorem attempt_eq_ok {g installed stored : Globals} {schedule : RemoteProtocolSchedule} :
    attempt g x = .ok (schedule, installed, stored) ↔
      (SerdeJson.fromStr parseU64String x.text = some schedule ∧ schedule.validate = .ok ()) ∧
        ¬(g.lastAcceptedVersion ≠ 0 ∧ schedule.version < g.lastAcceptedVersion) ∧
        installed = ⟨selectedEntries schedule, g.lastAcceptedVersion⟩ ∧
        stored = ⟨selectedEntries schedule, schedule.version⟩ := by
  have hattempt : attempt g x = (do
      let writes ← parseRemoteSchedule x.text >>= installSchedule g
      let schedule ← parseRemoteSchedule x.text
      return (schedule, writes)) := by
    cases x <;> rfl
  rw [hattempt, Runs.ok_bind]
  constructor
  · rintro ⟨writes, hwrites, h⟩
    obtain ⟨s, hs, hinstall⟩ := Runs.ok_bind.mp hwrites
    obtain ⟨s', hs', heq⟩ := Runs.ok_bind.mp h
    obtain rfl : s = s' := Except.ok.inj (hs.symm.trans hs')
    obtain ⟨rfl, rfl⟩ := Prod.mk.inj (Except.ok.inj heq)
    exact ⟨parseRemoteSchedule_eq_ok.mp hs, installSchedule_eq_ok.mp hinstall⟩
  · rintro ⟨hread, hinstall⟩
    have hparse := parseRemoteSchedule_eq_ok.mpr hread
    exact ⟨_, Runs.ok_bind.mpr ⟨_, hparse, installSchedule_eq_ok.mpr hinstall⟩,
      Runs.ok_bind.mpr ⟨_, hparse, rfl⟩⟩

theorem Settled.during (h : m.Settled) : ∀ m' ∈ m.during x, m'.LastGood := by
  intro m' hm'
  unfold Moment.during at hm'
  split at hm'
  next schedule installed stored heq =>
    obtain ⟨⟨-, hvalid⟩, hgate, rfl, -⟩ := attempt_eq_ok.mp heq
    rw [List.mem_singleton.mp hm']
    exact h.append hvalid hgate _
  · cases hm'

theorem Settled.after (h : m.Settled) : (m.after x).Settled := by
  unfold Moment.after
  split
  next schedule installed stored heq =>
    obtain ⟨⟨-, hvalid⟩, hgate, -, rfl⟩ := attempt_eq_ok.mp heq
    refine ⟨h.append hvalid hgate _, ?_⟩
    rw [List.getLast?_concat, Option.elim_some]
  · exact h

/-- A refused body writes nothing. -/
theorem Settled.refused (h : m.Settled) (hx : m.Refuses x) : m.during x = [] ∧ m.after x = m := by
  have hnone : ∀ r, attempt m.globals x ≠ .ok r := by
    rintro ⟨schedule, installed, stored⟩ heq
    obtain ⟨⟨hread, hvalid⟩, hgate, -⟩ := attempt_eq_ok.mp heq
    exact hgate (h.gate.mpr (hx schedule hread hvalid))
  unfold Moment.during Moment.after
  cases hattempt : attempt m.globals x with
  | ok r => exact absurd hattempt (hnone r)
  | error e => exact ⟨rfl, rfl⟩

theorem Settled.foldl (h : m.Settled) (xs : List Body) : (xs.foldl Moment.after m).Settled := by
  induction xs generalizing m with
  | nil => exact h
  | cons x xs ih => exact ih h.after

theorem Settled.moments (h : m.Settled) (xs : List Body) : ∀ m' ∈ m.moments xs, m'.LastGood := by
  induction xs generalizing m with
  | nil =>
    intro m' hm'
    rw [List.mem_singleton.mp hm']
    exact h.good
  | cons x xs ih =>
    intro m' hm'
    obtain rfl | hm' := List.mem_cons.mp hm'
    · exact h.good
    · obtain hm' | hm' := List.mem_append.mp hm'
      · exact h.during m' hm'
      · exact ih h.after m' hm'

/-- **The last good schedule stays**: whatever bodies a process reads, at every moment readers see
    the selection of the last accepted document, and a body that does not decode, is not valid or
    is below the last accepted version changes neither the entries nor the version. -/
theorem lastGood_of_run (xs : List Body) :
    (∀ m ∈ start.moments xs, m.LastGood) ∧
      ∀ x, (xs.foldl Moment.after start).Refuses x →
        (xs.foldl Moment.after start).during x = [] ∧
          (xs.foldl Moment.after start).after x = xs.foldl Moment.after start :=
  ⟨settled_start.moments xs, fun _ hx => (settled_start.foldl xs).refused hx⟩

end Run

section Sample

/-- Reads from the front of a text. -/
abbrev Reader := StateT (List Char) Option

def readText (text : String) : Reader Unit := fun body =>
  if text.toList <+: body then some ((), body.drop text.toList.length) else none

def readWhile (p : Char → Bool) : Reader (List Char) := fun body =>
  some (body.takeWhile p, body.dropWhile p)

def readNumber : Reader ℕ := do
  match u64FromStrRadix 10 (← readWhile (·.isDigit)) with
  | some n => return n.toNat
  | none => failure

/-- A string with a quantity in it. -/
def readQuantity (parse : List Char → Except QuantityError UInt64) : Reader UInt64 := do
  readText "\""
  match parse (← readWhile (· ≠ '\x22')) with
  | .ok n => do
    readText "\""
    return n
  | .error _ => failure

def readBool : Reader Bool :=
  (do readText "true"; return true) <|> do readText "false"; return false

def readEntry (parse : List Char → Except QuantityError UInt64) :
    Reader RemoteProtocolScheduleEntry := do
  readText "\x7b\"activationBlock\":"
  let activationBlock ← readNumber
  readText ",\"minBaseFeePerGas\":"
  let minBaseFeePerGas ← readQuantity parse
  readText ",\"elasticityMultiplier\":"
  let elasticityMultiplier ← readNumber
  readText ",\"baseFeeMaxChangeDenominator\":"
  let baseFeeMaxChangeDenominator ← readNumber
  readText ",\"maxBlockGasLimit\":"
  let maxBlockGasLimit ← readQuantity parse
  readText ",\"payloadProviderPayment\":\x7b\"enabled\":"
  let enabled ← readBool
  readText ",\"providerShareBps\":"
  let share ← readNumber
  readText ",\"minimumPayment\":"
  let minimumPayment ← readQuantity parse
  readText "\x7d\x7d"
  if 2 ^ 16 ≤ share then failure
  return ⟨UInt64.ofNat activationBlock, minBaseFeePerGas, elasticityMultiplier,
    baseFeeMaxChangeDenominator, maxBlockGasLimit, enabled, UInt16.ofNat share, minimumPayment⟩

/-- At most `n` more entries. -/
def readEntries (parse : List Char → Except QuantityError UInt64) :
    ℕ → Reader (List RemoteProtocolScheduleEntry)
  | 0 => return []
  | n + 1 => (do
      readText ","
      let entry ← readEntry parse
      return entry :: (← readEntries parse n)) <|> return []

/-- Documents without white space, with their members in the order of the declaration. -/
def readDocument (parse : List Char → Except QuantityError UInt64) :
    Reader RemoteProtocolSchedule := do
  readText "\x7b\"chainId\":"
  let chainId ← readNumber
  readText ",\"version\":"
  let version ← readNumber
  let currentBlock ← (do readText ",\"currentBlock\":"; some <$> readNumber) <|> return none
  readText ",\"schedule\":["
  let first ← readEntry parse
  let rest ← readEntries parse (← get).length
  readText "]\x7d"
  return ⟨UInt64.ofNat chainId, UInt64.ofNat version, currentBlock.map UInt64.ofNat, first :: rest⟩

/-- A decoder of such documents. -/
@[reducible] def compactDocuments : SerdeJson where
  fromStr parse body :=
    match readDocument parse body with
    | some (schedule, []) => some schedule
    | _ => none

/-- The text of one entry without payments to providers. -/
def entryText (activationBlock minBaseFeePerGas : String) : List Char :=
  "\x7b\"activationBlock\":".toList ++ activationBlock.toList ++
    ",\"minBaseFeePerGas\":\"".toList ++ minBaseFeePerGas.toList ++
    "\",\"elasticityMultiplier\":2,\"baseFeeMaxChangeDenominator\":8,".toList ++
    "\"maxBlockGasLimit\":\"30000000\",\"payloadProviderPayment\":\x7b".toList ++
    "\"enabled\":false,\"providerShareBps\":0,\"minimumPayment\":\"0\"\x7d\x7d".toList

/-- A document with a floor in decimal and one in hexadecimal digits. -/
def raisedFloorText (version : String) : List Char :=
  "\x7b\"chainId\":1,\"version\":".toList ++ version.toList ++ ",\"schedule\":[".toList ++
    entryText "0" "1" ++ ",".toList ++ entryText "10" "0x2" ++ "]\x7d".toList

example :
    compactDocuments.fromStr parseU64String (raisedFloorText "1") = some (raisedFloor none) := by
  decide +kernel

theorem fromStr_cutOff :
    compactDocuments.fromStr parseU64String (raisedFloorText "2").dropLast = none := by
  decide +kernel

theorem refuses_of_none [SerdeJson] {m : Moment} {text : List Char}
    (h : SerdeJson.fromStr parseU64String text = none) : m.Refuses (.polled text) := by
  intro schedule hread
  cases h.symm.trans hread

/-- After the document, a body that is cut off changes nothing. -/
theorem lastGood_of_run_cutOff :
    (@after compactDocuments start (.polled (raisedFloorText "1"))).globals.schedule.length = 2 ∧
      @after compactDocuments (@after compactDocuments start (.polled (raisedFloorText "1")))
        (.polled (raisedFloorText "2").dropLast) =
      @after compactDocuments start (.polled (raisedFloorText "1")) := by
  refine ⟨by decide +kernel, ?_⟩
  have hrun := (@lastGood_of_run compactDocuments [.polled (raisedFloorText "1")]).2
  rw [List.foldl_cons, List.foldl_nil] at hrun
  exact (hrun _ (@refuses_of_none compactDocuments _ _ fromStr_cutOff)).2

end Sample

end Moment

end Arkiv
