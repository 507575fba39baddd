namespace Psat.Lifecycle

abbrev BootId := String
abbrev ClaimId := Nat

inductive Phase
  | running
  | draining
  | stopped
deriving DecidableEq, Repr

-- The one row of `worker_lifecycle`.
structure Row where
  bootId : Option BootId := none
  machineId : Option String := none
  phase : Phase := .stopped
  startedAt : Option Nat := none
  heartbeatAt : Option Nat := none
  lastWorkAt : Option Nat := none
  idleSince : Option Nat := none
  nextStartAt : Option Nat := none
  paused : Bool := true
deriving DecidableEq, Repr

def claimAllowed (row : Row) (boot : BootId) : Bool := row.phase = .running ∧ row.bootId = some boot

def noteClaim (row : Row) (boot : BootId) (now : Nat) : Row :=
  if row.bootId = some boot then {row with lastWorkAt:=some now} else row

def registerBoot (row : Row) (boot : BootId) (machine : String) (now : Nat) : Row :=
  {row with
     bootId:=some boot,machineId:=some machine,phase:=.running,startedAt:=some now,heartbeatAt:=some now,
       lastWorkAt:=some now,
     idleSince:=none}

def finishBoot (row : Row) (boot : BootId) (now : Nat) : Row :=
  if row.bootId = some boot then {row with phase:=.stopped,heartbeatAt:=some now} else row

structure Workload where
  ready : List String
  active : Bool
deriving DecidableEq, Repr

def Workload.busy (work : Workload) : Bool := !work.ready.isEmpty || work.active

inductive Mode
  | off
  | observe
  | enforce
deriving DecidableEq, Repr

structure Machine where
  id : String
  state : String
deriving DecidableEq, Repr

structure Controller where
  machine : Option Machine
  mode : Mode
  grace : Nat
  cooldown : Nat := 60
deriving DecidableEq, Repr

inductive Action
  | busy
  | idle
  | start
  | wouldStart
  | wouldDrain
  | drain
deriving DecidableEq, Repr

def idleSince (row : Row) (now : Nat) (work : Workload) : Option Nat :=
  if work.busy then none
  else
    let since := row.idleSince.getD now
    match row.lastWorkAt with
    | some worked => some (if worked > since then worked else since)
    | none => some since

-- Differences of times may be negative.
def idleSeconds (row : Row) (now : Nat) (work : Workload) : Int :=
  match idleSince row now work with
  | some since => (now : Int) - since
  | none => 0

def drains (controller : Controller) (row : Row) (now : Nat) : Bool :=
  controller.mode = .enforce ∧ row.paused = false ∧ row.phase = .running ∧
    (controller.machine.any fun machine => machine.state = "started" ∧ row.machineId = some machine.id) ∧
    (row.heartbeatAt.any fun beat => (now : Int) - beat < 30)

def tick (controller : Controller) (row : Row) (now : Nat) (work : Workload) : Action × Row :=
  let enabled := controller.mode = .enforce ∧ row.paused = false
  let idled := {row with idleSince:=idleSince row now work}
  if work.ready ≠ [] ∧ (controller.machine.any fun machine => machine.state ∈ ["stopped","suspended"]) then
    if row.nextStartAt.all fun at_ => at_ ≤ now then
      if enabled then (.start,{idled with nextStartAt:=some (now + controller.cooldown)}) else (.wouldStart,idled)
    else (if work.busy then .busy else .idle,idled)
  else if work.busy = false ∧ idleSeconds row now work ≥ controller.grace then
    if drains controller row now then (.drain,{idled with phase:=.draining}) else (.wouldDrain,idled)
  else (if work.busy then .busy else .idle,idled)

-- The transaction that holds the row's lock: a claim or a tick, with what it read.
inductive Holder
  | claim (boot : BootId) (allowed : Bool)
  | tick (controller : Controller) (row : Row) (now : Nat) (work : Option Workload)
deriving DecidableEq, Repr

-- `unfinished` lists the committed claims of managed workers that have not ended.
structure World where
  now : Nat := 0
  row : Row := {}
  holder : Option Holder := none
  unfinished : List ClaimId := []
deriving DecidableEq, Repr

inductive Event
  | pass (seconds : Nat)
  | claim (boot : BootId)
  | commitClaim (claims : List ClaimId)
  | tick (controller : Controller)
  | snapshot (work : Workload)
  | commitTick
  | rollback
  | finish (claim : ClaimId)
  | register (boot : BootId) (machine : String)
  | heartbeat (boot : BootId)
  | finishBoot (boot : BootId)
deriving DecidableEq, Repr

-- A statement waits for the row's lock; a heartbeat skips the row instead.
def step (world : World) : Event → Option World
  | .pass seconds => some {world with now:=world.now + seconds}
  | .claim boot => match world.holder with
    | none => some {world with holder:=some (.claim boot (claimAllowed world.row boot))}
    | some _ => none
  | .commitClaim claims => match world.holder with
    | some (.claim boot true) => if claims = [] then none else
      some {world with row:=noteClaim world.row boot world.now,holder:=none,unfinished:=claims ++ world.unfinished}
    | _ => none
  | .tick controller => match world.holder with
    | none => some {world with holder:=some (.tick controller world.row world.now none)}
    | some _ => none
  | .snapshot work => match world.holder with
    | some (.tick controller row now none) => some {world with holder:=some (.tick controller row now (some work))}
    | _ => none
  | .commitTick => match world.holder with
    | some (.tick controller row now (some work)) =>
      some {world with row:=(tick controller row now work).2,holder:=none}
    | _ => none
  | .rollback => match world.holder with
    | some _ => some {world with holder:=none}
    | none => none
  | .finish claim => some {world with unfinished:=world.unfinished.filter fun other => other ≠ claim}
  | .register boot machine => match world.holder with
    | none => some {world with row:=registerBoot world.row boot machine world.now}
    | some _ => none
  | .heartbeat boot => match world.holder with
    | none =>
      if world.row.bootId = some boot then some {world with row:={world.row with heartbeatAt:=some world.now}}
        else some world
    | some _ => some world
  | .finishBoot boot => match world.holder with
    | none => some {world with row:=finishBoot world.row boot world.now}
    | some _ => if world.row.bootId = some boot then none else some world

end Psat.Lifecycle
