namespace Psat.Queue

inductive JobStatus
  | queued
  | processing
  | completed
  | failed
  | failedTerminal
deriving DecidableEq

inductive JobStage
  | discovery
  | dappCrawl
  | defillamaScan
  | selection
  | static
  | resolution
  | policy
  | effects
  | coverage
  | done
deriving DecidableEq

-- A token drawn by `uuid4`, and seconds of the database's clock.
abbrev Lease := Nat
abbrev Time := Nat

-- The keys of `Job.request` that a conversion to proxy context reads or writes.
structure Request where
  proxyAddress : Option String := none
  proxyType : Option String := none
  discoveryRelationship : Option String := none
  parentJobId : Option String := none
  restartStatic : Bool := false
deriving DecidableEq

structure Job where
  address : Option String
  status : JobStatus
  stage : JobStage
  detail : Option String := none
  request : Request := {}
  error : Option String := none
  workerId : Option String := none
  retryCount : Nat := 0
  nextAttemptAt : Option Time := none
  lastFailureKind : Option String := none
  leaseId : Option Lease := none
  leaseExpiresAt : Option Time := none
  updatedAt : Time := 0
deriving DecidableEq

def contextReadingStages : List JobStage := [.static,.resolution,.policy,.effects,.coverage]

def ranPastStaticStages : List JobStage := [.resolution,.policy,.effects,.coverage,.done]

def JobStage.text : JobStage → String
  | .discovery => "discovery"
  | .dappCrawl => "dapp_crawl"
  | .defillamaScan => "defillama_scan"
  | .selection => "selection"
  | .static => "static"
  | .resolution => "resolution"
  | .policy => "policy"
  | .effects => "effects"
  | .coverage => "coverage"
  | .done => "done"

namespace Job

-- Every exit hands the row back without a holder.
def release (job : Job) : Job := {job with workerId:=none,leaseId:=none,leaseExpiresAt:=none}

-- A pending dependency withholds a job from its claimants and is not part of its row.
def claimable (now : Time) (target : JobStage) (job : Job) : Bool :=
  job.stage = target && job.status = .queued && job.nextAttemptAt.all (· ≤ now)

def claim (now : Time) (worker : String) (lease : Lease) (ttl : Nat) (job : Job) : Job :=
  {job with
     status := .processing
     workerId := some worker
     leaseId := some lease
     leaseExpiresAt := some (now + ttl)
     updatedAt := now}

-- `reclaim_stuck_jobs`, on one row.
def stuck (now timeout : Time) (job : Job) : Bool :=
  job.status = .processing &&
    match job.leaseExpiresAt with
    | some expires => decide (expires < now)
    | none => decide (job.updatedAt + timeout < now)

def reclaim (now timeout : Time) (job : Job) : Job :=
  if job.stuck now timeout then {job.release with status:=.queued} else job

-- The flag is consumed: the job goes back to a queued static stage.
def restartStaticIfFlagged (job : Job) : Option Job :=
  if job.request.restartStatic then
    some {job.release with
      request := {job.request with restartStatic:=false}
      stage := .static
      status := .queued
      nextAttemptAt := none
      detail := some "Re-running static in proxy context"}
  else none

end Job

inductive LeaseLost
  | lost
deriving DecidableEq

-- A supplied token must match; none skips the check.
def lockedJob (lease : Option Lease) (row : Option Job) : Except LeaseLost (Option Job) :=
  match lease,row with
  | some token,some job => if job.leaseId = some token then .ok (some job) else .error .lost
  | _,row => .ok row

def Job.heartbeat (now : Time) (ttl : Nat) (job : Job) : Job :=
  {job with leaseExpiresAt:=some (now + ttl),updatedAt:=now}

-- One conditional UPDATE; no row returned means the lease moved.
def heartbeatJob (now : Time) (lease : Lease) (ttl : Nat) (row : Option Job) : Except LeaseLost (Option Job) :=
  match row with
  | some job => if job.leaseId = some lease then .ok (some (job.heartbeat now ttl)) else .error .lost
  | none => .error .lost

-- A leased write of one row: nothing without a row, nothing without the lease.
def leasedWrite (lease : Option Lease) (write : Job → Job) (row : Option Job) : Except LeaseLost (Option Job) :=
  (lockedJob lease row).map (Option.map write)

def advanceDetail (next : JobStage) (detail : String) : String :=
  if detail = "" then "Advanced to " ++ next.text else detail

-- A stage's exit: back to static where the flag asks for it, else what the exit itself writes.
def Job.restartOr (now : Time) (leave : Job → Job) (job : Job) : Job :=
  match job.restartStaticIfFlagged with
  | some restarted => {restarted with updatedAt:=now}
  | none => {(leave job).release with updatedAt:=now}

def Job.advance (now : Time) (next : JobStage) (detail : String) : Job → Job :=
  Job.restartOr now fun job => {job with stage:=next,status:=.queued,detail:=some (advanceDetail next detail)}

def Job.complete (now : Time) (detail : String) : Job → Job :=
  Job.restartOr now fun job => {job with stage:=.done,status:=.completed,detail:=some detail}

-- The failed attempt of a flagged job is not a retry of the re-run.
def Job.requeue (now : Time) (error : String) (retryCount : Nat) (nextAttemptAt : Time) : Job → Job :=
  Job.restartOr now fun job =>
    {job with
       status := .queued
       error := some error
       retryCount := retryCount
       nextAttemptAt := some nextAttemptAt
       lastFailureKind := some "transient"
       detail := some ("Retry scheduled for " ++ toString nextAttemptAt)}

-- A deferred job keeps its stage and its flag.
def Job.defer (now : Time) (detail : String) (delay : Nat) (job : Job) : Job :=
  {job.release with status:=.queued,detail:=some detail,nextAttemptAt:=some (now + delay),updatedAt:=now}

-- The flag is consumed here too, and the failure is kept on top of it.
def Job.failTerminal (now : Time) (error kind : String) (retryCount : Option Nat) (job : Job) : Job :=
  let base := job.restartStaticIfFlagged.getD job
  {base.release with
     status := .failedTerminal
     error := some error
     detail := some "Failed (terminal)"
     lastFailureKind := some kind
     nextAttemptAt := none
     retryCount := retryCount.getD base.retryCount
     updatedAt := now}

-- No lease is asked for, and the row's lease stays where it is.
def Job.fail (now : Time) (error : String) (job : Job) : Job :=
  {job with status:=.failed,error:=some error,detail:=some "Failed",workerId:=none,updatedAt:=now}

-- The calls a worker makes on a claimed job, each with the lease it presents.
inductive Call
  | heartbeat (lease : Lease) (ttl : Nat)
  | advance (next : JobStage) (detail : String) (lease : Option Lease)
  | complete (detail : String) (lease : Option Lease)
  | defer (detail : String) (delay : Nat) (lease : Option Lease)
  | requeue (error : String) (retryCount : Nat) (nextAttemptAt : Time) (lease : Option Lease)
  | failTerminal (error kind : String) (retryCount : Option Nat) (lease : Option Lease)

namespace Call

def presents : Call → Option Lease
  | heartbeat lease _ => some lease
  | advance _ _ lease => lease
  | complete _ lease => lease
  | defer _ _ lease => lease
  | requeue _ _ _ lease => lease
  | failTerminal _ _ _ lease => lease

def write (now : Time) : Call → Job → Job
  | heartbeat _ ttl => Job.heartbeat now ttl
  | advance next detail _ => Job.advance now next detail
  | complete detail _ => Job.complete now detail
  | defer detail delay _ => Job.defer now detail delay
  | requeue error retryCount nextAttemptAt _ => Job.requeue now error retryCount nextAttemptAt
  | failTerminal error kind retryCount _ => Job.failTerminal now error kind retryCount

def run (now : Time) (call : Call) (row : Option Job) : Except LeaseLost (Option Job) :=
  match call with
  | heartbeat lease ttl => heartbeatJob now lease ttl row
  | _ => leasedWrite call.presents (call.write now) row

def after (now : Time) (call : Call) (row : Option Job) : Option Job :=
  match call.run now row with
  | .ok written => written
  | .error _ => row

end Call

-- A JSONB merge: defaults fill what is absent, the patch overrides.
def mergeRequest (defaults request patch : Request) : Request where
  proxyAddress := patch.proxyAddress <|> request.proxyAddress <|> defaults.proxyAddress
  proxyType := patch.proxyType <|> request.proxyType <|> defaults.proxyType
  discoveryRelationship :=
    patch.discoveryRelationship <|> request.discoveryRelationship <|> defaults.discoveryRelationship
  parentJobId := patch.parentJobId <|> request.parentJobId <|> defaults.parentJobId
  restartStatic := patch.restartStatic || request.restartStatic || defaults.restartStatic

-- With `unlessPresent`, nothing is written while that key holds a value.
def mergeJobRequest (now : Time) (patch defaults : Request) (unlessPresent : Request → Bool) (job : Job) : Option Job :=
  if unlessPresent job.request then none
  else some {job with request:=mergeRequest defaults job.request patch,updatedAt:=now}

structure ProxyContext where
  proxyAddress : String
  proxyType : Option String := none
  discoveryRelationship : String := "implementation"
  parentJobId : Option String := none

-- None when the job already carries a proxy context.
def convertImplJobToProxyContext (now : Time) (context : ProxyContext) (job : Job) : Option Job := do
  let converted ← mergeJobRequest now
    {proxyAddress:=some context.proxyAddress,proxyType:=context.proxyType.filter (· ≠ "")}
    {discoveryRelationship:=some context.discoveryRelationship,parentJobId:=context.parentJobId.filter (· ≠ "")}
    (fun request => request.proxyAddress.isSome) job
  if converted.status = .processing ∧ converted.stage ∈ contextReadingStages then
    mergeJobRequest now {restartStatic:=true} {} (fun _ => false) converted
  else if converted.status = .completed ∨ converted.stage ∈ ranPastStaticStages then
    some {converted.release with
      stage := .static
      status := .queued
      nextAttemptAt := none
      detail := some ("Re-resolving in proxy context (" ++ context.proxyAddress ++ ")")}
  else some converted

-- `_requeue_policy`
def Job.requeuePolicy (now : Time) (detail : String) (job : Job) : Job :=
  {job.release with stage:=.policy,status:=.queued,nextAttemptAt:=none,detail:=some detail,updatedAt:=now}

namespace Call

-- The lease check: nothing presented, or the row's own lease.
def admitted (call : Call) (job : Job) : Prop := ∀ lease, call.presents = some lease → job.leaseId = some lease

theorem after_none (now : Time) (call : Call) : call.after now none = none := by
  cases call with
  | heartbeat lease ttl => rfl
  | advance next detail lease => cases lease <;> rfl
  | complete detail lease => cases lease <;> rfl
  | defer detail delay lease => cases lease <;> rfl
  | requeue error retryCount nextAttemptAt lease => cases lease <;> rfl
  | failTerminal error kind retryCount lease => cases lease <;> rfl

theorem lockedJob_some (lease : Option Lease) (job : Job) :
    (∃ token, lease = some token ∧ job.leaseId ≠ some token ∧ lockedJob lease (some job) = .error .lost) ∨
      ((∀ token, lease = some token → job.leaseId = some token) ∧ lockedJob lease (some job) = .ok (some job)) := by
  cases lease with
  | none => exact .inr ⟨nofun,rfl⟩
  | some token =>
    by_cases held : job.leaseId = some token
    · exact .inr ⟨fun _ same => by cases same; exact held,if_pos held⟩
    · exact .inl ⟨token,rfl,held,if_neg held⟩

theorem after_some (now : Time) (call : Call) (job : Job) :
    (call.admitted job ∧ call.after now (some job) = some (call.write now job)) ∨
    (¬ call.admitted job ∧ call.after now (some job) = some job) := by
  have decided : call.run now (some job) = leasedWrite call.presents (call.write now) (some job) := by
    cases call with
    | heartbeat lease ttl =>
      by_cases held : job.leaseId = some lease
      · simp [run,heartbeatJob,leasedWrite,lockedJob,presents,write,Except.map,held]
      · simp [run,heartbeatJob,leasedWrite,lockedJob,presents,Except.map,held]
    | _ => rfl
  unfold after
  rw [decided]
  unfold leasedWrite
  cases lockedJob_some call.presents job with
  | inl lost =>
    obtain ⟨token,presented,differs,locked⟩ := lost
    right
    rw [locked]
    exact ⟨fun admitted => differs (admitted token presented),rfl⟩
  | inr held =>
    left
    rw [held.2]
    exact ⟨held.1,rfl⟩

end Call

end Psat.Queue
