import Psat.General.Reach
import Psat.Indexer.Prefixes

namespace Psat.Indexer
open Psat.General

-- The chain's logs, each under its emitter. A transaction hash and a log index
-- name one log.
structure Chain where
  holds : String → Entry → Prop
  identified : ∀ {address address' entry entry'}, holds address entry → holds address' entry' →
    entry.txHash = entry'.txHash → entry.logIndex = entry'.logIndex → address = address' ∧ entry = entry'

def Chain.logs (chain : Chain) (key : Key) (entry : Entry) : Prop :=
  chain.holds key.address entry ∧ entry.topic0 = some key.topic0

structure LogPage where
  fromBlock : Nat
  toBlock : Nat
  logs : List FetchedEventLog

def singleAddress : List String → Option String
  | [address] => some address
  | _ => none

def emitter (addresses : List String) (log : FetchedEventLog) : String :=
  (singleAddress addresses).getD (Text.lower log.address)

def Requested (topics : List String) (entry : Entry) : Prop := ∃ topic ∈ topics, entry.topic0 = some topic

-- A page that holds all and only the chain's logs of a request over its range.
structure Faithful (chain : Chain) (addresses topics : List String) (page : LogPage) : Prop where
  only : ∀ log ∈ page.logs, emitter addresses log ∈ addresses ∧ chain.holds (emitter addresses log) log.entry ∧
    Requested topics log.entry ∧ page.fromBlock ≤ log.blockNumber ∧ log.blockNumber ≤ page.toBlock
  all : ∀ address ∈ addresses, ∀ entry, chain.holds address entry → Requested topics entry →
    page.fromBlock ≤ entry.blockNumber → entry.blockNumber ≤ page.toBlock →
    ∃ log ∈ page.logs, log.entry = entry ∧ emitter addresses log = address

inductive Phase
  | planned
  | chunks
  | pages (topics : List String) (chunkEnd expectedFrom : Nat)
  | prefixes (topics : List String) (chunkEnd expectedFrom : Nat) (logs : List FetchedEventLog)
    (pending : List (Nat × Nat × Nat))

-- One visit between two steps; the source's `position` is a function of `expected`.
structure Visit where
  plan : GroupPlan
  target : Nat
  hashAt : Nat → Option String
  read : List Nat
  expected : List Position
  rewindPending : Bool
  phase : Phase

def rewoundTo (rewinds : List (String × Rewind)) (member : Position) : Nat :=
  match List.lookup member.key.address rewinds with
  | some rewind => min member.last rewind.toBlock
  | none => member.last

namespace Visit

def position (v : Visit) (member : Position) : Nat :=
  if v.rewindPending then rewoundTo v.plan.rewinds member else member.last

-- The lowest position below the target, or the target itself.
def frontier (v : Visit) : Nat := ((v.expected.map v.position).filter (· < v.target)).foldl min v.target

-- Fringe stamps of members already at the target, read before any write.
def unstamped (v : Visit) : List Nat :=
  (v.expected.filter fun member =>
      let stamped := match List.lookup member.key.address v.plan.rewinds with
        | some rewind => if member.last ≤ rewind.toBlock then member.blockHash else rewind.blockHash
        | none => member.blockHash
      decide (v.target ≤ v.position member) && stamped.isNone).map v.position

def wantedTopics (v : Visit) (chunkEnd : Nat) : List String :=
  (v.expected.filter fun member => v.position member < chunkEnd).map fun member => member.key.topic0

def stamp (v : Visit) (block : Nat) : Except Failure (Option String) :=
  if block ∈ v.read then .ok (v.hashAt block) else .error .fringeHashNotRead

def writePrefix (v : Visit) (topics : List String) (logs : List FetchedEventLog) (offset endOffset prefixEnd : Nat)
    (store : Store) : Except Failure Store := do
  lockMembers v.plan.addresses v.expected store
  let rewound := if v.rewindPending then applyRewinds v.plan.rewinds store else store
  let buckets ← bucketLogs (singleAddress v.plan.addresses) v.plan.addresses (slice logs offset endOffset)
  writeCursors {addresses:=v.plan.addresses,topics,target:=v.target,prefixEnd,buckets,stamp:=v.stamp}
    rewound.logs rewound.cursors

end Visit

def byBlock (a b : FetchedEventLog) : Prop := a.blockNumber ≤ b.blockNumber

instance : DecidableRel byBlock := fun a b => Nat.decLe a.blockNumber b.blockNumber

-- An accepted page, its logs in block order and its prefixes still to write.
def Visit.receive (v : Visit) (topics : List String) (chunkEnd : Nat) (page : LogPage) (maxRows maxBytes : Nat) :
    Visit :=
  let logs := page.logs.insertionSort byBlock
  let pending := writePrefixes logs page.toBlock maxRows maxBytes
  {v with phase:=.prefixes topics chunkEnd (page.toBlock + 1) logs pending}

-- The rewinds a commit applied, and where each cursor stood against the target.
inductive Event
  | rewound (key : Key) (toBlock : Nat)
  | stood (key : Key) (last target : Nat)

def Event.key : Event → Key
  | .rewound key _ => key
  | .stood key _ _ => key

def rewindEvent (rewinds : List (String × Rewind)) (cursor : IndexedEventCursor) : Option Event :=
  match List.lookup cursor.key.address rewinds with
  | some rewind => if rewind.toBlock < cursor.lastIndexedBlock then some (.rewound cursor.key rewind.toBlock) else none
  | none => none

def Visit.rewindEvents (v : Visit) (store : Store) : List Event :=
  if v.rewindPending then store.cursors.filterMap (rewindEvent v.plan.rewinds) else []

def Visit.stoodEvents (v : Visit) (store : Store) : List Event :=
  (store.group v.plan.addresses).map fun cursor => .stood cursor.key cursor.lastIndexedBlock v.target

-- One step of one visit; others may act in between, and a visit may stop.
inductive Acts (chain : Chain) : Store → Visit → Store → Option Visit → List Event → Prop
  | warm {store v} : v.phase = .planned → (∀ member ∈ v.expected, v.target ≤ v.position member) →
    lockMembers v.plan.addresses v.expected store = .ok () →
    Acts chain store v (markWarm v.plan.addresses store) none (v.stoodEvents (markWarm v.plan.addresses store))
  | start {store v} : v.phase = .planned → (∃ member ∈ v.expected, v.position member < v.target) →
    Acts chain store v store (some {v with phase:=.chunks,read:=v.read ++ v.unstamped}) []
  | chunk {store v} (span chunkEnd : Nat) : v.phase = .chunks → v.frontier < v.target →
    chunkEnd = min v.target (v.frontier + span) →
    Acts chain store v store
      (some {v with
          phase:=.pages (v.wantedTopics chunkEnd) chunkEnd (v.frontier + 1)
          read:=if v.target ≤ chunkEnd then v.target :: v.read else v.read}) []
  | page {store v topics chunkEnd expectedFrom page} (maxRows maxBytes : Nat) :
    v.phase = .pages topics chunkEnd expectedFrom → Faithful chain v.plan.addresses topics page →
    page.fromBlock = expectedFrom → page.toBlock ≤ chunkEnd → page.fromBlock ≤ page.toBlock →
    Acts chain store v store
      (some (v.receive topics chunkEnd page maxRows maxBytes)) []
  | commit {store v topics chunkEnd expectedFrom logs offset endOffset prefixEnd pending store'} :
    v.phase = .prefixes topics chunkEnd expectedFrom logs ((offset,endOffset,prefixEnd) :: pending) →
    v.writePrefix topics logs offset endOffset prefixEnd store = .ok store' →
    Acts chain store v store'
      (some {v with
          expected:=store'.memberPositions v.plan.addresses
          rewindPending:=false
          phase:=.prefixes topics chunkEnd expectedFrom logs pending})
      (v.rewindEvents store ++ v.stoodEvents store')
  | pageDone {store v topics chunkEnd expectedFrom logs} :
    v.phase = .prefixes topics chunkEnd expectedFrom logs [] →
    Acts chain store v store (some {v with phase:=.pages topics chunkEnd expectedFrom}) []
  | chunkDone {store v topics chunkEnd} : v.phase = .pages topics chunkEnd (chunkEnd + 1) →
    Acts chain store v store (some {v with phase:=.chunks}) []
  | stop {store v} : Acts chain store v store none []

structure World where
  store : Store := {}
  visits : List Visit := []
  history : List Event := []

inductive Step (chain : Chain) : World → World → Prop
  | enroll {w before after} (key : Key) (seed : Nat) : w.store.cursors = before ++ after →
    (∀ cursor ∈ w.store.cursors, cursor.key ≠ key) →
    Step chain w
      {w with store:={w.store with cursors:=before ++ enrollEventCursor key seed :: after}}
  | visit {w} (addresses : List String) (target : Nat) (hashAt : Nat → Option String) (depth : Nat) (read : List Nat) :
    Step chain w
      {w with visits:=
          { plan:=planGroup w.store addresses target hashAt depth
            target,hashAt,read
            expected:=w.store.memberPositions addresses
            rewindPending:=!(planGroup w.store addresses target hashAt depth).rewinds.isEmpty
            phase:=.planned } :: w.visits}
  | act {w before v after store v' events} : w.visits = before ++ v :: after →
    Acts chain w.store v store v' events →
    Step chain w {store,visits:=before ++ v'.toList ++ after,history:=w.history ++ events}

def Reached (chain : Chain) : World → Prop := Reachable (fun w => w = {}) (Step chain)

end Psat.Indexer
