import Mathlib.Logic.Relation
import Psat.Monitoring.EventState

namespace Psat.Monitoring
open Psat.General

structure FetchedEventLog where
  address : Address
  topics : List Topic
  blockNumber : Nat
  txHash : String
  logIndex : Nat
  data : String := "0x"
deriving DecidableEq

structure MonitoredContract where
  address : Address
  chain : Chain
  config : MonitoringConfig := {}
  lastKnownState : List (String × Value) := []
  lastScannedBlock : Nat
  enrollmentBlock : Option Nat := none
  isActive : Bool := true

structure Identity where
  contractId : ContractId
  txHash : String
  logIndex : Nat
  eventType : String
deriving DecidableEq

structure MonitoredEvent where
  identity : Identity
  blockNumber : Nat
  historical : Bool
  data : Parsed

-- The rows the scanner reads and writes; `effects` lists whose side effects were run.
structure Database where
  ids : List ContractId
  contracts : ContractId → Option MonitoredContract
  events : List MonitoredEvent := []
  effects : List Identity := []

def Database.update (db : Database) (id : ContractId) (change : MonitoredContract → MonitoredContract) : Database :=
  {db with contracts:=fun other => if other = id then (db.contracts id).map change else db.contracts other}

-- The hand-rolled decoders, the ABI decoder, and the tier of an unstamped spec.
structure Decoders where
  parseAnyLog : FetchedEventLog → Option Parsed
  parseTrackedLog : FetchedEventLog → TrackedTopic → Option Parsed
  legacyTier : TrackedTopic → MonitoringConfig → WitnessTier

def resolveSpecTier (decoders : Decoders) (spec : TrackedTopic) (mc : MonitoredContract) : WitnessTier :=
  spec.witnessTier.getD (decoders.legacyTier spec mc.config)

-- A member that emitted a log, with its specs by topic.
structure Hydrated where
  id : ContractId
  specs : List (Topic × TrackedTopic)

def specMap (config : MonitoringConfig) : List (Topic × TrackedTopic) :=
  Dict.write [] ((config.trackedTopics.filter (·.topic0 ≠ "")).map fun spec => (Text.lower spec.topic0,spec))

def hydrate (db : Database) (memberIds : List ContractId) (logs : List FetchedEventLog) : List (Address × Hydrated) :=
  Dict.write [] <| memberIds.filterMap fun id => (db.contracts id).bind fun mc =>
    if logs.any (·.address = Text.lower mc.address) then some (Text.lower mc.address,⟨id,specMap mc.config⟩) else none

def decodeLog (decoders : Decoders) (byAddress : List (Address × Hydrated)) (log : FetchedEventLog) :
    Option (Parsed × Option TrackedTopic) :=
  match decoders.parseAnyLog log with
  | some parsed => some (parsed,none)
  | none =>
    ((byAddress.lookup log.address).bind fun emitter => log.topics.head?.bind fun topic =>
      emitter.specs.lookup topic).bind fun spec =>
        (decoders.parseTrackedLog log spec).map fun parsed => (parsed,some spec)

def publishes (decoders : Decoders) (byAddress : List (Address × Hydrated)) (db : Database) (log : FetchedEventLog) :
    Option MonitoredEvent :=
  (decodeLog decoders byAddress log).bind fun decoded => (byAddress.lookup log.address).bind
    fun emitter => (db.contracts emitter.id).bind fun mc =>
      if shouldWatch mc.config decoded.1 && decoded.2.all (resolveSpecTier decoders · mc = .selfDescribing) then
        some {identity:=⟨emitter.id,log.txHash,log.logIndex,decoded.1.eventType⟩,blockNumber:=log.blockNumber
              historical:=mc.enrollmentBlock.any (log.blockNumber < ·),data:=decoded.1}
      else none

-- The side effects of an inserted event; those outside the row stand for themselves.
def runEffects (db : Database) (event : MonitoredEvent) : Database :=
  let db := db.update event.identity.contractId fun mc =>
    {mc with lastKnownState:=updateStateFromEvent mc.lastKnownState event.data}
  {db with effects:=db.effects ++ [event.identity]}

-- An insert that loses does nothing; an event from before enrollment is only recorded.
def recordEvent (db : Database) (event : MonitoredEvent) : Database :=
  if db.events.any (·.identity = event.identity) then db
  else
    let db : Database := {db with events:=db.events ++ [event]}
    if event.historical then db else runEffects db event

def processLog (decoders : Decoders) (byAddress : List (Address × Hydrated)) (db : Database) (log : FetchedEventLog) :
    Database :=
  (publishes decoders byAddress db log).elim db (recordEvent db)

def processLogs (decoders : Decoders) (byAddress : List (Address × Hydrated)) (db : Database)
    (logs : List FetchedEventLog) : Database :=
  logs.foldl (processLog decoders byAddress) db

def advanceCursors (db : Database) (memberIds : List ContractId) (windowEnd : Nat) : Database :=
  {db with contracts:=fun id =>
      if id ∈ memberIds then (db.contracts id).map fun mc =>
        {mc with lastScannedBlock:=max mc.lastScannedBlock windowEnd} else db.contracts id}

structure Limits where
  addressBatch : Nat
  maxWindowsCohort : Nat
  maxWindowsPass : Nat
  runawayWindows : Nat
  maxGetlogsRange : Chain → Nat
  confirmationDepth : Chain → Nat
  runawayLag : Chain → Nat

structure Cohort where
  chain : Chain
  memberIds : List ContractId
  addresses : List Address
  cursor : Nat
  done : Bool := false
  failed : Bool := false
  windowsThisPass : Nat := 0

def indexRows (db : Database) : List (ContractId × MonitoredContract) :=
  db.ids.filterMap fun id => ((db.contracts id).filter (·.isActive)).map (id,·)

-- The slices at `range(0, len(members), size)`
def batches (size : Nat) (members : List α) : List (List α) :=
  (List.range' 0 ((members.length + size - 1) / size) size).map fun i => (members.drop i).take size

def lowest : List (ContractId × MonitoredContract) → Nat
  | [] => 0
  | first :: rest => rest.foldl (fun low row => min low row.2.lastScannedBlock) first.2.lastScannedBlock

def cohortOf (chain : Chain) (batch : List (ContractId × MonitoredContract)) : Cohort where
  chain := chain
  memberIds := batch.map (·.1)
  addresses := batch.map fun row => Text.lower row.2.address
  cursor := lowest batch

def bucketOf (limits : Limits) (row : ContractId × MonitoredContract) : Chain × Nat :=
  (row.2.chain,row.2.lastScannedBlock / limits.maxGetlogsRange row.2.chain)

def cohortsOf (limits : Limits) (rows : List (ContractId × MonitoredContract)) : List Cohort :=
  (rows.map (bucketOf limits)).eraseDups.flatMap fun bucket =>
      (batches (max 1 limits.addressBatch) (rows.filter (bucketOf limits · = bucket))).map (cohortOf bucket.1)

structure Turn where
  index : Nat
  cap : Nat
  windows : Nat

structure Work where
  index : Nat
  windowStart : Nat
  windowEnd : Nat
  byAddress : List (Address × Hydrated)
  logs : List FetchedEventLog
  processed : Nat := 0

structure Pass where
  limits : Limits
  topics : List Topic
  head : Chain → Nat
  cohorts : List Cohort
  heldChains : List Chain
  windowsScanned : Nat := 0
  turn : Option Turn := none
  work : Option Work := none

def scanTopicsUnion (registry : List Topic) (db : Database) : List Topic :=
  registry.map Text.lower ++ (indexRows db).flatMap fun row => (row.2.config.trackedTopics.filter (·.topic0 ≠ "")).map
    fun spec => Text.lower spec.topic0

def startPass (registry : List Topic) (limits : Limits) (head : Chain → Nat) (held : List Chain) (db : Database) :
    Pass where
  limits := limits
  topics := scanTopicsUnion registry db
  head := head
  cohorts := (cohortsOf limits (indexRows db)).filter (·.chain ∈ held)
  heldChains := held

def Pass.confirmedHead (pass : Pass) (chain : Chain) : Nat := pass.head chain - pass.limits.confirmationDepth chain

def Pass.waiting (pass : Pass) (cohort : Cohort) : Bool :=
  !cohort.done && !cohort.failed && decide (cohort.chain ∈ pass.heldChains)

-- The start of a round: cohorts that have caught up are done.
def Pass.settle (pass : Pass) : Pass :=
  {pass with cohorts:=pass.cohorts.map fun cohort =>
      if pass.waiting cohort && decide (pass.confirmedHead cohort.chain ≤ cohort.cursor) then {cohort with done:=true}
        else cohort}

def Pass.runaway (pass : Pass) (cohort : Cohort) : Bool :=
  decide (0 < pass.limits.runawayLag cohort.chain) && decide
    (pass.limits.runawayLag cohort.chain < pass.confirmedHead cohort.chain - cohort.cursor)

def Pass.eligible (pass : Pass) : List (Nat × Cohort) :=
  (pass.cohorts.zipIdx.map fun entry => (entry.2,entry.1)).filter fun entry =>
      pass.waiting entry.2 && !(pass.runaway entry.2 && decide (pass.limits.runawayWindows ≤ entry.2.windowsThisPass))

-- Healthy cohorts first, then those further behind.
def Pass.precedes (pass : Pass) (one other : Nat × Cohort) : Bool :=
  if pass.runaway one.2 = pass.runaway other.2 then
    decide (pass.confirmedHead other.2.chain - other.2.cursor < pass.confirmedHead one.2.chain - one.2.cursor)
  else !pass.runaway one.2

def Pass.pick (pass : Pass) : Option (Nat × Cohort) :=
  match pass.eligible with
  | [] => none
  | first :: rest => some (rest.foldl (fun best entry => if pass.precedes entry best then entry else best) first)

inductive Next
  | finished
  | moved (pass : Pass)
  | window (index windowStart windowEnd : Nat)

def Pass.mark (pass : Pass) (index : Nat) (change : Cohort → Cohort) : Pass :=
  {pass with cohorts:=pass.cohorts.modify index change}

def Pass.next (pass : Pass) : Next :=
  match pass.turn with
  | none =>
    if pass.windowsScanned < pass.limits.maxWindowsPass then
      let settled := pass.settle
      match settled.pick with
      | none => .finished
      | some (index,cohort) =>
        let cap := if settled.runaway cohort then min settled.limits.maxWindowsCohort
          (settled.limits.runawayWindows - cohort.windowsThisPass)
          else settled.limits.maxWindowsCohort
        .moved {settled with turn:=some ⟨index,cap,0⟩}
    else .finished
  | some turn =>
    match pass.cohorts[turn.index]? with
    | none => .finished
    | some cohort =>
      if turn.windows < turn.cap ∧ pass.windowsScanned < pass.limits.maxWindowsPass then
        if pass.confirmedHead cohort.chain < cohort.cursor + 1 ∨ cohort.addresses = [] then
          .moved {pass.mark turn.index ({· with done:=true}) with turn:=none}
        else .window turn.index (cohort.cursor + 1)
          (min (cohort.cursor + pass.limits.maxGetlogsRange cohort.chain) (pass.confirmedHead cohort.chain))
      else .moved {pass with turn:=none}

structure Committed where
  memberIds : List ContractId
  windowStart : Nat
  windowEnd : Nat
  logs : List FetchedEventLog

structure World where
  db : Database
  passes : List Pass := []
  committed : List Committed := []

section Steps

variable (registry : List Topic) (decoders : Decoders) (logsOf : Chain → List FetchedEventLog)

-- A fetch that returns all logs of the addresses and topics in the window.
def Fetches (cohort : Cohort) (topics : List Topic) (windowStart windowEnd : Nat) (logs : List FetchedEventLog) :
    Prop :=
  ∀ log ∈ logsOf cohort.chain, log.address ∈ cohort.addresses → (∃ topic ∈ topics, log.topics.head? = some topic) →
    windowStart ≤ log.blockNumber → log.blockNumber ≤ windowEnd → log ∈ logs

def World.put (w : World) (position : Nat) (pass : Pass) : World := {w with passes:=w.passes.set position pass}

def Pass.fail (pass : Pass) (index : Nat) : Pass := {pass.mark index ({· with failed:=true}) with turn:=none}

-- After a committed window: the cursor moves on, and a lost lease ends the chain.
def Pass.advance (pass : Pass) (work : Work) (chain : Chain) (renewed : Bool) : Pass :=
  {pass.mark work.index (fun cohort => {cohort with cursor:=work.windowEnd,windowsThisPass:=cohort.windowsThisPass + 1})
   with
     windowsScanned:=pass.windowsScanned + 1
     turn:=if renewed then pass.turn.map fun turn => {turn with windows:=turn.windows + 1} else none
     heldChains:=if renewed then pass.heldChains else pass.heldChains.filter (· ≠ chain)
     work:=none}

-- Any number of scanners, each at its own place.
inductive Step : World → World → Prop
  | begin {w : World} (limits : Limits) (head : Chain → Nat) (held : List Chain) :
    Step w {w with passes:=w.passes ++ [startPass registry limits head held w.db]}
  | move {w : World} {position : Nat} {pass later : Pass} (running : w.passes[position]? = some pass)
    (idle : pass.work = none)
    (next : pass.next = .moved later) : Step w (w.put position later)
  | fetch {w : World} {position index windowStart windowEnd : Nat} {pass : Pass} {cohort : Cohort}
    {logs : List FetchedEventLog}
    (running : w.passes[position]? = some pass) (idle : pass.work = none)
      (next : pass.next = .window index windowStart windowEnd)
    (found : pass.cohorts[index]? = some cohort)
      (fetched : Fetches logsOf cohort pass.topics windowStart windowEnd logs) :
    Step w
      (w.put position {pass with work:=some ⟨index,windowStart,windowEnd,hydrate w.db cohort.memberIds logs,logs,0⟩})
  | fetchFails {w : World} {position index windowStart windowEnd : Nat} {pass : Pass}
    (running : w.passes[position]? = some pass)
    (idle : pass.work = none) (next : pass.next = .window index windowStart windowEnd) : Step w
      (w.put position (pass.fail index))
  | part {w : World} {position : Nat} {pass : Pass} {work : Work} (more : Nat)
    (running : w.passes[position]? = some pass) (busy : pass.work = some work) :
    Step w
      ({w with db:=processLogs decoders work.byAddress w.db ((work.logs.drop work.processed).take more)}.put position
      {pass with work:=some {work with processed:=work.processed + more}})
  | close {w : World} {position : Nat} {pass : Pass} {work : Work} {cohort : Cohort} (renewed : Bool)
    (running : w.passes[position]? = some pass)
    (busy : pass.work = some work) (found : pass.cohorts[work.index]? = some cohort) :
    Step w ({w with
      db:=advanceCursors (processLogs decoders work.byAddress w.db (work.logs.drop work.processed))
        cohort.memberIds work.windowEnd
      committed:=w.committed ++ [(⟨cohort.memberIds,work.windowStart,work.windowEnd,work.logs⟩ : Committed)]}.put
        position
      (pass.advance work cohort.chain renewed))
  | stop {w : World} (position : Nat) : Step w {w with passes:=w.passes.eraseIdx position}
  | track {w : World} (id : ContractId) (spec : TrackedTopic) :
    Step w
      {w with db:=w.db.update id fun mc =>
              {mc with config:={mc.config with trackedTopics:=mc.config.trackedTopics ++ [spec]}}}

abbrev Runs : World → World → Prop := Relation.ReflTransGen (Step registry decoders logsOf)

abbrev RunsWithin (kind : World → Prop) : World → World → Prop :=
  Relation.ReflTransGen fun w later => Step registry decoders logsOf w later ∧ kind w

end Steps

end Psat.Monitoring
