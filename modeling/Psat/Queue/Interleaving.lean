import Psat.General.Reach
import Psat.Queue.Jobs

namespace Psat.Queue

abbrev JobId := Nat

structure Claim where
  job : JobId
  lease : Lease
  stage : JobStage
deriving DecidableEq

structure World where
  now : Time
  jobs : JobId → Option Job
  claims : List Claim

-- One committed transaction each. `SKIP LOCKED` lets a reclaim pass over rows.
inductive Event
  | tick (now : Time)
  | create (id : JobId) (address : Option String) (stage : JobStage) (request : Request)
  | claim (id : JobId) (stage : JobStage) (worker : String) (lease : Lease) (ttl : Nat)
  | act (id : JobId) (call : Call)
  | fail (id : JobId) (error : String)
  | reclaim (timeout : Time) (skipped : JobId → Bool)
  | convert (id : JobId) (context : ProxyContext)

def createJob (now : Time) (address : Option String) (stage : JobStage) (request : Request) : Job :=
  {address,stage,request,status:=.queued,detail:=some "Queued for analysis",updatedAt:=now}

-- Every event acts on each row by itself.
def Event.row (now : Time) (id : JobId) (row : Option Job) : Event → Option Job
  | .tick _ => row
  | .create target address stage request => if id = target then some (createJob now address stage request) else row
  | .claim target _ worker lease ttl => if id = target then row.map (.claim now worker lease ttl) else row
  | .act target call => if id = target then call.after now row else row
  | .fail target error => if id = target then row.map (.fail now error) else row
  | .reclaim timeout skipped => if skipped id then row else row.map (.reclaim now timeout)
  | .convert target context =>
    if id = target then row.map (fun job => (convertImplJobToProxyContext now context job).getD job) else row

namespace World

-- A drawn lease differs from every lease drawn before.
def enabled (world : World) : Event → Prop
  | .tick now => world.now ≤ now
  | .create id _ _ _ => world.jobs id = none
  | .claim id stage _ lease _ =>
    (∃ job, world.jobs id = some job ∧ job.claimable world.now stage) ∧ ∀ earlier ∈ world.claims, earlier.lease ≠ lease
  | _ => True

def after (world : World) (event : Event) : World where
  now := match event with | .tick now => now | _ => world.now
  jobs := fun id => event.row world.now id (world.jobs id)
  claims := match event with | .claim id stage _ lease _ => ⟨id,lease,stage⟩ :: world.claims | _ => world.claims

def Step (allowed : World → Event → Prop) (before later : World) : Prop :=
  ∃ event, before.enabled event ∧ allowed before event ∧ before.after event = later

abbrev Run (allowed : World → Event → Prop) : World → World → Prop := Relation.ReflTransGen (Step allowed)

def empty : World := ⟨0,fun _ => none,[]⟩

def anyEvent (_ : World) (_ : Event) : Prop := True

def play (world : World) (events : List Event) : World := events.foldl after world

def plays (allowed : World → Event → Prop) (world : World) : List Event → Prop
  | [] => True
  | event :: events => world.enabled event ∧ allowed world event ∧ (world.after event).plays allowed events

theorem run_play (played : world.plays allowed events) : Run allowed world (world.play events) := by
  induction events generalizing world with
  | nil => exact .refl
  | cons event events ih =>
    obtain ⟨enabled,permitted,rest⟩ := played
    exact .head ⟨event,enabled,permitted,rfl⟩ (ih rest)

@[simp] theorem after_jobs (world : World) (event : Event) (id : JobId) :
    (world.after event).jobs id = event.row world.now id (world.jobs id) := rfl

theorem claims_kept {world : World} (made : claim ∈ world.claims) : claim ∈ (world.after event).claims := by
  cases event with
  | claim id stage worker lease ttl => exact List.mem_cons_of_mem _ made
  | _ => exact made

end World

theorem Job.restartOr_lease (now : Time) (leave : Job → Job) (job : Job) : (job.restartOr now leave).leaseId = none :=
    by
  unfold Job.restartOr Job.restartStaticIfFlagged
  by_cases flagged : job.request.restartStatic
  · simp [flagged,Job.release]
  · simp [flagged,Job.release]

theorem Call.write_lease (now : Time) (call : Call) (job : Job) :
    (call.write now job).leaseId = none ∨ ∃ ttl, call.write now job = job.heartbeat now ttl := by
  cases call with
  | heartbeat lease ttl => exact .inr ⟨ttl,rfl⟩
  | defer | failTerminal => exact .inl rfl
  | _ => exact .inl (Job.restartOr_lease now _ job)

-- The three ways a conversion leaves the job.
inductive Conversion (job converted : Job) : Prop
  | flagged (running : job.status = .processing) (reading : job.stage ∈ contextReadingStages)
    (flag : converted.request.restartStatic = true) (lease : converted.leaseId = job.leaseId)
    (stage : converted.stage = job.stage) (status : converted.status = job.status)
  | restarted (lease : converted.leaseId = none) (stage : converted.stage = .static)
    (status : converted.status = .queued)
  | ahead (idle : ¬ (job.status = .processing ∧ job.stage ∈ contextReadingStages))
    (before : job.stage ∉ ranPastStaticStages)
    (flag : converted.request.restartStatic = job.request.restartStatic) (lease : converted.leaseId = job.leaseId)
    (stage : converted.stage = job.stage) (status : converted.status = job.status)
      (uncompleted : job.status ≠ .completed)

theorem conversion (success : convertImplJobToProxyContext now context job = some converted) :
    Conversion job converted ∧ converted.address = job.address := by
  unfold convertImplJobToProxyContext mergeJobRequest at success
  by_cases present : job.request.proxyAddress.isSome
  · simp [present] at success
  · simp only [present,Bool.false_eq_true,if_false,Option.bind_eq_bind,Option.bind_some] at success
    split at success
    · rename_i running
      cases success
      exact ⟨.flagged running.1 running.2 rfl rfl rfl rfl,rfl⟩
    · rename_i idle
      split at success
      · cases success
        exact ⟨.restarted rfl rfl rfl,rfl⟩
      · rename_i before
        cases success
        have kept : (false || job.request.restartStatic || false) = job.request.restartStatic := by simp
        exact ⟨.ahead idle (fun past => before (.inr past)) kept rfl rfl rfl fun completed => before (.inl completed),
          rfl⟩

inductive Touch (now : Time) : Event → JobId → Option Job → Option Job → Prop
  | kept {event : Event} {id : JobId} {row : Option Job} : Touch now event id row row
  | created {id : JobId} {row : Option Job} (address : Option String) (stage : JobStage) (request : Request) :
    Touch now (.create id address stage request) id row (some (createJob now address stage request))
  | claimed {id : JobId} {job : Job} (stage : JobStage) (worker : String) (lease : Lease) (ttl : Nat) :
    Touch now (.claim id stage worker lease ttl) id (some job) (some (job.claim now worker lease ttl))
  | wrote {id : JobId} {job : Job} {call : Call} (admitted : call.admitted job) :
    Touch now (.act id call) id (some job) (some (call.write now job))
  | failed {id : JobId} {job : Job} (error : String) : Touch now (.fail id error) id (some job)
    (some (job.fail now error))
  | reclaimed {id : JobId} {job : Job} {timeout : Time} {skipped : JobId → Bool} (stuck : job.stuck now timeout) :
    Touch now (.reclaim timeout skipped) id (some job) (some {job.release with status:=.queued})
  | converted {id : JobId} {job converted : Job} {context : ProxyContext}
    (success : convertImplJobToProxyContext now context job = some converted) :
    Touch now (.convert id context) id (some job) (some converted)

theorem Event.touch (now : Time) (event : Event) (id : JobId) (row : Option Job) : Touch now event id row
    (event.row now id row) := by
  fun_cases Event.row now id row event with
  | case2 address stage request => exact .created address stage request
  | case4 stage worker lease ttl =>
    cases row with
    | none => exact .kept
    | some job => exact .claimed stage worker lease ttl
  | case6 call =>
    cases row with
    | none =>
      rw [call.after_none now]
      exact .kept
    | some job =>
      cases call.after_some now job with
      | inl wrote =>
        rw [wrote.2]
        exact .wrote wrote.1
      | inr kept =>
        rw [kept.2]
        exact .kept
  | case8 error =>
    cases row with
    | none => exact .kept
    | some job => exact .failed error
  | case11 timeout skipped _ =>
    cases row with
    | none => exact .kept
    | some job =>
      by_cases stuck : job.stuck now timeout
      · simp only [Option.map_some,Job.reclaim,stuck,if_true]
        exact .reclaimed stuck
      · simp only [Option.map_some,Job.reclaim,stuck]
        exact .kept
  | case12 context =>
    cases row with
    | none => exact .kept
    | some job =>
      rw [Option.map_some]
      cases success : convertImplJobToProxyContext now context job with
      | none => exact .kept
      | some converted => exact .converted success
  | _ => exact .kept

theorem Touch.lease_origin {id : JobId} (touch : Touch now event id row (some later))
    (carries : later.leaseId = some lease) :
    (∃ stage worker ttl, event = .claim id stage worker lease ttl ∧ ∃ job, row = some job ∧
      later = job.claim now worker lease ttl) ∨
        ∃ job, row = some job ∧ job.leaseId = some lease ∧ later.stage = job.stage ∧
          (later.status = job.status ∨ ∃ error, event = .fail id error) := by
  cases touch with
  | kept => exact .inr ⟨later,rfl,carries,rfl,.inl rfl⟩
  | claimed stage worker drawn ttl =>
    cases carries
    exact .inl ⟨stage,worker,ttl,rfl,_,rfl,rfl⟩
  | @wrote _ job call admitted =>
    cases call.write_lease now job with
    | inl released =>
      rw [released] at carries
      cases carries
    | inr beat =>
      obtain ⟨ttl,beat⟩ := beat
      rw [beat] at carries ⊢
      exact .inr ⟨job,rfl,carries,rfl,.inl rfl⟩
  | failed error => exact .inr ⟨_,rfl,carries,rfl,.inr ⟨error,rfl⟩⟩
  | @converted _ job _ context success =>
    cases (conversion success).1 with
    | flagged _ _ _ held stage status => exact .inr ⟨job,rfl,held ▸ carries,stage,.inl status⟩
    | restarted released _ _ =>
      rw [released] at carries
      cases carries
    | ahead _ _ _ held stage status _ => exact .inr ⟨job,rfl,held ▸ carries,stage,.inl status⟩
  | _ => cases carries

theorem Job.restartOr_address {job : Job} (leaves : (leave job).address = job.address) :
    (job.restartOr now leave).address = job.address := by
  unfold Job.restartOr Job.restartStaticIfFlagged
  by_cases flagged : job.request.restartStatic
  · simp [flagged,Job.release]
  · simpa [flagged,Job.release] using leaves

theorem Call.write_address (now : Time) (call : Call) (job : Job) : (call.write now job).address = job.address := by
  cases call with
  | heartbeat | defer => rfl
  | failTerminal error kind retryCount lease =>
    show (job.restartStaticIfFlagged.getD job).address = job.address
    unfold Job.restartStaticIfFlagged
    by_cases flagged : job.request.restartStatic
    · simp [flagged,Job.release]
    · simp [flagged]
  | _ => exact Job.restartOr_address rfl

theorem Touch.address {id : JobId} (touch : Touch now event id (some job) (some later))
    (existing : ∀ address stage request, event ≠ .create id address stage request) : later.address = job.address := by
  cases touch with
  | created address stage request => exact absurd rfl (existing address stage request)
  | @wrote _ _ call admitted => exact call.write_address now job
  | converted success => exact (conversion success).2
  | _ => rfl

end Psat.Queue
