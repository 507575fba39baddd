import Psat.General.Dict
import Psat.General.Runs

namespace Psat.Materialize
open Psat.General

structure Key where
  chain : String
  keccak : String
deriving DecidableEq, Repr

inductive Kind
  | analysis
  | trackingPlan
  | predicateTrees
deriving DecidableEq, Repr

def kinds : List Kind := [.analysis,.trackingPlan,.predicateTrees]

-- A serialized JSON object.
abbrev Payload := String

structure Bundle where
  contractName : Option String := none
  payload : Kind → Option Payload

structure BlobKey where
  key : Key
  kind : Kind
deriving DecidableEq, Repr

inductive Status
  | pending
  | building
  | ready
  | failed
deriving DecidableEq, Repr

structure Row where
  address : String
  contractName : Option String := none
  inline : Kind → Option Payload := fun _ => none
  blobKey : Kind → Option BlobKey := fun _ => none
  sourceContentHash : Option String := none
  status : Status := .pending
  error : Option String := none
  deterministicFailure : Bool := false
  builderStartedAt : Option Nat := none
  analysisSchemaVersion : Nat

-- Analyzer version, staleness limit in seconds, and whether storage is configured.
structure Config where
  version : Nat
  staleness : Nat
  storage : Bool
  long : 60 ≤ staleness

def Row.isReady (config : Config) (row : Row) : Bool := row.status = .ready ∧ row.analysisSchemaVersion = config.version

-- A call of `materialize_or_wait`, with what its source hash function answers.
structure Call where
  key : Key
  address : String
  sourceHash : Option String := none

inductive Phase
  | polling (deadline : Nat)
  | building (claimedAt : Nat)
  | raised (claimedAt : Nat) (error : String) (deterministic : Bool)
  | uploading (bundle : Bundle) (left : List Kind)
  | returned (row : Row)
  | remembered (error : String)
  | gone

structure Caller where
  call : Call
  phase : Phase

-- `usable` is false for an analysis or trees that report a failed build.
structure Publication where
  key : Key
  address : String
  bundle : Bundle
  sourceContentHash : Option String := none
  usable : Bool := true
  refreshOnDiffer : Bool := false

-- A publication that holds its key's lock, with the objects still to upload.
structure Publisher where
  publication : Publication
  left : List Kind

-- `builds` is no part of the database: it remembers which bundle each row was
-- last written from.
structure World where
  now : Nat
  rows : List (Key × Row) := []
  blobs : List (BlobKey × Payload) := []
  callers : List (Nat × Caller) := []
  publishers : List (Nat × Publisher) := []
  builds : List (Key × Bundle) := []

def World.row (world : World) (key : Key) : Option Row := world.rows.lookup key

def World.locked (world : World) (key : Key) : Bool := world.publishers.any fun entry => entry.2.publication.key = key

def World.setPhase (world : World) (id : Nat) (caller : Caller) (phase : Phase) : World :=
  {world with callers:=Dict.put id {caller with phase:=phase} world.callers}

-- The unique index on chain and address.
def World.boundElsewhere (world : World) (key : Key) (address : String) : Bool :=
  world.rows.any fun entry => entry.1 ≠ key ∧ entry.1.chain = key.chain ∧ entry.2.address = address

def World.write (world : World) (key : Key) (row : Row) (build : Option Bundle) : World :=
  {world with rows:=Dict.put key row world.rows,
              builds:=(build.map fun bundle => Dict.put key bundle world.builds).getD world.builds}

-- A write of one row; a violated index raises and the call ends there.
def World.save (world : World) (key : Key) (row : Row) (build : Option Bundle) (id : Nat) (caller : Caller)
    (phase : Phase) : World :=
  if world.boundElsewhere key row.address then world.setPhase id caller .gone
  else (world.write key row build).setPhase id caller phase

def hydrate (config : Config) (world : World) (row : Row) (kind : Kind) : Option Payload :=
  match row.blobKey kind with
  | none => row.inline kind
  | some blobKey => if config.storage then ((world.blobs.lookup blobKey).or (row.inline kind)) else row.inline kind

section Steps
variable (config : Config)

def remembers (call : Call) (row : Row) : Bool :=
  row.status = .failed ∧ row.deterministicFailure = true ∧ row.analysisSchemaVersion = config.version ∧
    row.address = call.address ∧
    row.sourceContentHash ≠ none ∧ row.sourceContentHash = call.sourceHash

-- Another caller's build that is still trusted and waited for.
def waits (now deadline : Nat) (row : Row) : Bool :=
  row.status = .building ∧ (row.builderStartedAt.any fun started => now < started + config.staleness) ∧ now < deadline

def reusable (sourceHash : String) (row : Row) : Bool := row.isReady config ∧ row.sourceContentHash = some sourceHash

def claimedRow (call : Call) (now : Nat) (existing : Option Row) : Row :=
  {existing.getD {address:=call.address,analysisSchemaVersion:=config.version} with
     status:=.building,builderStartedAt:=some now,address:=call.address,error:=none,deterministicFailure:=false,
     sourceContentHash:=call.sourceHash,analysisSchemaVersion:=config.version}

def copyBundleRow (call : Call) (donor : Row) (existing : Option Row) : Row where
  address := call.address
  contractName := donor.contractName
  inline := donor.inline
  blobKey := donor.blobKey
  sourceContentHash := call.sourceHash
  status := .ready
  error := none
  deterministicFailure := (existing.map Row.deterministicFailure).getD false
  builderStartedAt := none
  analysisSchemaVersion := config.version

def failedRow (call : Call) (error : String) (deterministic : Bool) (existing : Option Row) : Row :=
  {existing.getD {address:=call.address,analysisSchemaVersion:=config.version} with
     status:=.failed,error:=some error,deterministicFailure:=deterministic,builderStartedAt:=none,
     sourceContentHash:=call.sourceHash,analysisSchemaVersion:=config.version}

-- With storage the payloads are uploaded under the key's own names, else they
-- stay in the row.
def readyRow (key : Key) (address : String) (sourceHash : Option String) (bundle : Bundle) (existing : Option Row) :
    Row where
  address := address
  contractName := bundle.contractName
  inline := fun kind => if config.storage then none else bundle.payload kind
  blobKey := fun kind => if config.storage ∧ (bundle.payload kind).isSome then some ⟨key,kind⟩ else none
  sourceContentHash := sourceHash
  status := .ready
  error := none
  deterministicFailure := (existing.map Row.deterministicFailure).getD false
  builderStartedAt := none
  analysisSchemaVersion := config.version

def uploads (bundle : Bundle) : List Kind :=
  if config.storage then kinds.filter fun kind => (bundle.payload kind).isSome else []

-- The first phase; `donor` is the row that the lookup by source hash returns.
def poll (world : World) (id : Nat) (caller : Caller) (deadline : Nat) (donor : Option Key) : Option World :=
  let call := caller.call
  let existing := world.row call.key
  if world.locked call.key then none
  else if existing.any (Row.isReady config) then existing.map fun row => world.setPhase id caller (.returned row)
  else if existing.any (remembers config call) then
    some (world.setPhase id caller (.remembered ((existing.bind Row.error).getD "build failed")))
  else if existing.any (waits config world.now deadline) then some world
  else match donor with
    | some source => do
      let hash ← call.sourceHash
      let found ← world.row source
      if hash ≠ "" ∧ reusable config hash found then
        let copied := copyBundleRow config call found existing
        some (world.save call.key copied (world.builds.lookup source) id caller (.returned copied))
      else none
    | none =>
      if world.rows.any fun entry => call.sourceHash.any fun hash => hash ≠ "" ∧ reusable config hash entry.2 then none
      else some (world.save call.key (claimedRow config call world.now existing) none id caller (.building world.now))

inductive PublishOutcome
  | written
  | refreshed
  | alreadyCurrent
  | keccakBoundToOtherAddress
  | addressBoundToOtherKeccak
  | incompleteBundle
deriving DecidableEq, Repr

def PublishOutcome.writes (outcome : PublishOutcome) : Bool := outcome = .written ∨ outcome = .refreshed

def publishPrecheck (existing : Option Row) (address : String) : Option PublishOutcome :=
  match existing with
  | none => none
  | some row =>
    if row.isReady config = false then none
    else if row.address ≠ address then some .keccakBoundToOtherAddress
    else some .alreadyCurrent

def bundleDiffers (world : World) (existing : Option Row) (bundle : Bundle) : Bool :=
  match existing with
  | none => true
  | some row => kinds.any fun kind => hydrate config world row kind ≠ bundle.payload kind

-- What a publication decides under the key's lock.
def publishOutcome (world : World) (publication : Publication) : PublishOutcome :=
  let bundle := publication.bundle
  let existing := world.row publication.key
  let bound := world.boundElsewhere publication.key publication.address
  if bundle.payload .analysis = none ∨ bundle.payload .trackingPlan = none ∨
    publication.usable = false then .incompleteBundle
  else match publishPrecheck config existing publication.address with
    | none => if bound then .addressBoundToOtherKeccak else .written
    | some .alreadyCurrent =>
      if publication.refreshOnDiffer = false ∨ bundleDiffers config world existing bundle = false then .alreadyCurrent
      else if bound then .addressBoundToOtherKeccak
      else .refreshed
    | some outcome => outcome

inductive Event
  | pass (seconds : Nat)
  | call (id : Nat) (call : Call)
  | poll (id : Nat) (donor : Option Key)
  | build (id : Nat) (bundle : Bundle)
  | fail (id : Nat) (error : String) (deterministic : Bool)
  | writeFailure (id : Nat)
  | put (id : Nat)
  | finish (id : Nat)
  | crash (id : Nat)
  | publish (id : Nat) (publication : Publication)
  | putPublished (id : Nat)
  | commitPublished (id : Nat)
  | crashPublished (id : Nat)

def put (world : World) (key : Key) (bundle : Bundle) (kind : Kind) : World :=
  {world with
    blobs:=((bundle.payload kind).map fun payload => Dict.put ⟨key,kind⟩ payload world.blobs).getD world.blobs}

def finish (world : World) (id : Nat) (caller : Caller) (bundle : Bundle) : Option World :=
  let call := caller.call
  let existing := world.row call.key
  if world.locked call.key then none
  else if existing.any (Row.isReady config) then existing.map fun row => world.setPhase id caller (.returned row)
  else
    let row := readyRow config call.key call.address call.sourceHash bundle existing
    some (world.save call.key row (some bundle) id caller (.returned row))

def step (world : World) : Event → Option World
  | .pass seconds => some {world with now:=world.now + seconds}
  | .call id call => match world.callers.lookup id with
    | some _ => none
    | none => some {world with callers:=Dict.put id ⟨call,.polling (world.now + config.staleness)⟩ world.callers}
  | .poll id donor => match world.callers.lookup id with
    | some caller => match caller.phase with
      | .polling deadline => poll config world id caller deadline donor
      | _ => none
    | none => none
  | .build id bundle => match world.callers.lookup id with
    | some caller => match caller.phase with
      | .building _ => some (world.setPhase id caller (.uploading bundle (uploads config bundle)))
      | _ => none
    | none => none
  | .fail id error deterministic => match world.callers.lookup id with
    | some caller => match caller.phase with
      | .building claimedAt => some (world.setPhase id caller (.raised claimedAt error deterministic))
      | _ => none
    | none => none
  | .writeFailure id => match world.callers.lookup id with
    | some caller => match caller.phase with
      | .raised _ error deterministic =>
        let row := failedRow config caller.call error deterministic (world.row caller.call.key)
        some (world.save caller.call.key row none id caller .gone)
      | _ => none
    | none => none
  | .put id => match world.callers.lookup id with
    | some caller => match caller.phase with
      | .uploading bundle (kind :: left) =>
        some ((put world caller.call.key bundle kind).setPhase id caller (.uploading bundle left))
      | _ => none
    | none => none
  | .finish id => match world.callers.lookup id with
    | some caller => match caller.phase with
      | .uploading bundle [] => finish config world id caller bundle
      | _ => none
    | none => none
  | .crash id => match world.callers.lookup id with
    | some caller => some (world.setPhase id caller .gone)
    | none => none
  | .publish id publication => match world.publishers.lookup id with
    | some _ => none
    | none =>
      if world.locked publication.key then none
      else if (publishOutcome config world publication).writes then
        some {world with publishers:=Dict.put id ⟨publication,uploads config publication.bundle⟩ world.publishers}
      else some world
  | .putPublished id => match world.publishers.lookup id with
    | some publisher => match publisher.left with
      | kind :: left => some {put world publisher.publication.key publisher.publication.bundle kind with
        publishers:=Dict.put id {publisher with left:=left} world.publishers}
      | [] => none
    | none => none
  | .commitPublished id => match world.publishers.lookup id with
    | some publisher => match publisher.left with
      | [] =>
        let publication := publisher.publication
        let row := readyRow config publication.key publication.address publication.sourceContentHash publication.bundle
          (world.row publication.key)
        let released := {world with publishers:=world.publishers.filter fun entry => entry.1 ≠ id}
        if world.boundElsewhere publication.key publication.address then some released
        else some (released.write publication.key row (some publication.bundle))
      | _ => none
    | none => none
  | .crashPublished id => some {world with publishers:=world.publishers.filter fun entry => entry.1 ≠ id}

end Steps

inductive Moves : Phase → Phase → Prop
  | raised (claimedAt : Nat) (error : String) (deterministic : Bool) : Moves (.building claimedAt)
    (.raised claimedAt error deterministic)
  | returned (phase : Phase) (row : Row) : Moves phase (.returned row)
  | remembered (phase : Phase) (error : String) : Moves phase (.remembered error)
  | gone (phase : Phase) : Moves phase .gone

-- The publication that ends without writing its row.
def abandons (world : World) : Event → Option Nat
  | .crashPublished id => some id
  | .commitPublished id => (world.publishers.lookup id).bind fun publisher =>
    if world.boundElsewhere publisher.publication.key publisher.publication.address then some id else none
  | _ => none

structure Unserved (config : Config) (world : World) (call : Call) (deadline : Nat) : Prop where
  unlocked : world.locked call.key = false
  unready : (world.row call.key).any (Row.isReady config) = false
  unwaited : (world.row call.key).any (waits config world.now deadline) = false

inductive Next (config : Config) (world : World) : Event → World → Prop
  | pass (seconds : Nat) : Next config world (.pass seconds) {world with now:=world.now + seconds}
  | call (id : Nat) (call : Call) : world.callers.lookup id = none → Next config world (.call id call)
    {world with callers:=Dict.put id ⟨call,.polling (world.now + config.staleness)⟩ world.callers}
  | same (event : Event) : Next config world event world
  | moves (event : Event) (id : Nat) (caller : Caller) (phase : Phase) : world.callers.lookup id = some caller →
    Moves caller.phase phase → Next config world event (world.setPhase id caller phase)
  | built (id : Nat) (caller : Caller) (claimedAt : Nat) (bundle : Bundle) : world.callers.lookup id = some caller →
    caller.phase = .building claimedAt →
    Next config world (.build id bundle) (world.setPhase id caller (.uploading bundle (uploads config bundle)))
  | claim (id : Nat) (caller : Caller) (deadline : Nat) : world.callers.lookup id = some caller →
    caller.phase = .polling deadline →
    Unserved config world caller.call deadline →
    Next config world (.poll id none) ((world.write caller.call.key
      (claimedRow config caller.call world.now (world.row caller.call.key)) none).setPhase id caller
        (.building world.now))
  | copy (id : Nat) (caller : Caller) (deadline : Nat) (source : Key) (found : Row) (hash : String) :
    world.callers.lookup id = some caller → caller.phase = .polling deadline →
      Unserved config world caller.call deadline →
    world.row source = some found → reusable config hash found = true → caller.call.sourceHash = some hash →
    Next config world (.poll id (some source)) ((world.write caller.call.key
      (copyBundleRow config caller.call found (world.row caller.call.key))
        (world.builds.lookup source)).setPhase id caller
          (.returned (copyBundleRow config caller.call found (world.row caller.call.key))))
  | failure (id : Nat) (caller : Caller) (claimedAt : Nat) (error : String) (deterministic : Bool) :
    world.callers.lookup id = some caller → caller.phase = .raised claimedAt error deterministic →
    world.boundElsewhere caller.call.key (failedRow config caller.call error deterministic
      (world.row caller.call.key)).address = false →
    Next config world (.writeFailure id) ((world.write caller.call.key
      (failedRow config caller.call error deterministic (world.row caller.call.key)) none).setPhase id caller .gone)
  | put (id : Nat) (caller : Caller) (bundle : Bundle) (kind : Kind) (left : List Kind) : world.callers.lookup id =
    some caller →
    caller.phase = .uploading bundle (kind :: left) →
    Next config world (.put id) ((put world caller.call.key bundle kind).setPhase id caller (.uploading bundle left))
  | finish (id : Nat) (caller : Caller) (bundle : Bundle) : world.callers.lookup id = some caller →
    caller.phase = .uploading bundle [] → world.locked caller.call.key = false →
    (world.row caller.call.key).any (Row.isReady config) = false →
    Next config world (.finish id) ((world.write caller.call.key
      (readyRow config caller.call.key caller.call.address caller.call.sourceHash bundle (world.row caller.call.key))
        (some bundle)).setPhase
          id caller
            (.returned (readyRow config caller.call.key caller.call.address caller.call.sourceHash bundle
              (world.row caller.call.key))))
  | publish (id : Nat) (publication : Publication) : world.publishers.lookup id = none →
    world.locked publication.key = false →
    (publishOutcome config world publication).writes = true →
    Next config world (.publish id publication)
      {world with publishers:=Dict.put id ⟨publication,uploads config publication.bundle⟩ world.publishers}
  | putPublished (id : Nat) (publisher : Publisher) (kind : Kind) (left : List Kind) : world.publishers.lookup id =
    some publisher →
    publisher.left = kind :: left →
    Next config world (.putPublished id)
      {Materialize.put world publisher.publication.key publisher.publication.bundle kind with
      publishers:=Dict.put id {publisher with left:=left} world.publishers}
  | commit (id : Nat) (publisher : Publisher) : world.publishers.lookup id = some publisher → publisher.left = [] →
    Next config world (.commitPublished id)
      ({world with publishers:=world.publishers.filter fun entry => entry.1 ≠ id}.write
      publisher.publication.key (readyRow config publisher.publication.key publisher.publication.address
        publisher.publication.sourceContentHash publisher.publication.bundle (world.row publisher.publication.key))
      (some publisher.publication.bundle))
  | release (event : Event) (id : Nat) : abandons world event = some id → Next config world event
    {world with publishers:=world.publishers.filter fun entry => entry.1 ≠ id}

theorem save_next {id : Nat} (found : world.callers.lookup id = some caller)
    (saved : world.boundElsewhere key row.address = false → Next config world event
      ((world.write key row build).setPhase id caller phase)) :
    Next config world event (world.save key row build id caller phase) := by
  rw [World.save]
  split
  · exact .moves event id caller .gone found (.gone _)
  · rename_i unbound
    exact saved (by simpa using unbound)

theorem poll_next {id : Nat} (found : world.callers.lookup id = some caller)
    (phase : caller.phase = .polling deadline) (stepped : poll config world id caller deadline donor = some next) :
    Next config world (.poll id donor) next := by
  revert stepped
  fun_cases poll config world id caller deadline donor with
  | case2 =>
    intro stepped
    obtain ⟨row,_,rfl⟩ := Option.map_eq_some_iff.mp stepped
    exact .moves _ id caller _ found (.returned _ row)
  | case3 =>
    rintro ⟨⟩
    exact .moves _ id caller _ found (.remembered _ _)
  | case4 =>
    rintro ⟨⟩
    exact .same _
  | case5 call existing unlocked unready _ unwaited source =>
    intro stepped
    have unserved : Unserved config world caller.call deadline :=
      ⟨by simpa using unlocked,by simpa using unready,by simpa using unwaited⟩
    obtain ⟨hash,hashed,stepped⟩ := Option.bind_eq_some_iff.mp stepped
    obtain ⟨row,held,stepped⟩ := Option.bind_eq_some_iff.mp stepped
    split at stepped
    · rename_i usable
      cases stepped
      exact save_next found fun _ =>
        (.copy id caller deadline source row hash found phase unserved held usable.2 hashed)
    · cases stepped
  | case7 call existing unlocked unready _ unwaited =>
    rintro ⟨⟩
    exact save_next found fun _ =>
      (.claim id caller deadline found phase ⟨by simpa using unlocked,by simpa using unready,by simpa using unwaited⟩)
  | _ => rintro ⟨⟩

theorem finish_next {id : Nat} (found : world.callers.lookup id = some caller)
    (phase : caller.phase = .uploading bundle []) (stepped : finish config world id caller bundle = some next) :
    Next config world (.finish id) next := by
  revert stepped
  fun_cases finish config world id caller bundle with
  | case1 => rintro ⟨⟩
  | case2 =>
    intro stepped
    obtain ⟨row,_,rfl⟩ := Option.map_eq_some_iff.mp stepped
    exact .moves _ id caller _ found (.returned _ row)
  | case3 call existing unlocked unready =>
    rintro ⟨⟩
    exact save_next found fun _ => (.finish id caller bundle found phase (by simpa using unlocked)
      (by simpa using unready))

theorem step_next (stepped : step config world event = some next) : Next config world event next := by
  revert stepped
  fun_cases step config world event with
  | case4 id donor caller found deadline phase => exact poll_next found phase
  | case19 id caller found bundle phase => exact finish_next found phase
  | case1 seconds =>
    rintro ⟨⟩
    exact .pass seconds
  | case3 id call free =>
    rintro ⟨⟩
    exact .call id call free
  | case7 id bundle caller found claimedAt phase =>
    rintro ⟨⟩
    exact .built id caller claimedAt bundle found phase
  | case10 id error deterministic caller found claimedAt phase =>
    rintro ⟨⟩
    exact .moves _ id caller _ found (phase ▸ .raised claimedAt error deterministic)
  | case13 id caller found claimedAt error deterministic phase =>
    rintro ⟨⟩
    exact save_next found (.failure id caller claimedAt error deterministic found phase)
  | case16 id caller found bundle kind left phase =>
    rintro ⟨⟩
    exact .put id caller bundle kind left found phase
  | case22 id caller found =>
    rintro ⟨⟩
    exact .moves _ id caller .gone found (.gone _)
  | case26 id publication free unlocked writes =>
    rintro ⟨⟩
    exact .publish id publication free (by simpa using unlocked) writes
  | case27 =>
    rintro ⟨⟩
    exact .same _
  | case28 id publisher found kind left rest =>
    rintro ⟨⟩
    exact .putPublished id publisher kind left found rest
  | case32 id publisher found rest =>
    rintro ⟨⟩
    exact .commit id publisher found rest
  | case31 id publisher found _ _ _ bound =>
    intro stepped
    exact Option.some.inj stepped ▸ .release _ id (by rw [abandons,found,Option.bind_some,if_pos bound])
  | case35 id =>
    intro stepped
    exact Option.some.inj stepped ▸ .release _ id rfl
  | _ => rintro ⟨⟩

end Psat.Materialize
