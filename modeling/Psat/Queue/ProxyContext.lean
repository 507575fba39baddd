import Psat.Queue.Interleaving

namespace Psat.Queue
open List World Call

-- Where the worker of a stage sends a job.
def routes (address : Option String) : JobStage → List JobStage
  | .discovery => if address.isSome then [.static] else [.selection]
  | .dappCrawl => [.done]
  | .defillamaScan => [.done]
  | .selection => [.done]
  | .static => [.resolution,.done]
  | .resolution => [.policy]
  | .policy => [.effects,.coverage]
  | .effects => [.coverage]
  | .coverage => [.done]
  | .done => []

-- A worker completes a job instead of advancing it to done.
def Call.follows (address : Option String) (stage : JobStage) : Call → Prop
  | .advance next _ _ => next ≠ .done ∧ next ∈ routes address stage
  | .complete _ _ => .done ∈ routes address stage
  | _ => True

-- Address jobs enter at discovery, and calls are made under the claimant's own lease.
def staffed (world : World) : Event → Prop
  | .create _ address stage _ => address.isSome → stage = .discovery
  | .act id call => ∃ claim ∈ world.claims, claim.job = id ∧ call.presents = some claim.lease ∧
    ∀ job, world.jobs id = some job → call.follows job.address claim.stage
  | .convert id _ => ∀ job, world.jobs id = some job → job.address.isSome
  | _ => True

def Event.startsStatic (id : JobId) : Event → Prop
  | .claim target stage _ _ _ => target = id ∧ stage = .static
  | _ => False

def addressStages : List JobStage := [.discovery,.static,.resolution,.policy,.effects,.coverage,.done]

-- The lease on a row was drawn by a claim of the row's stage.
structure Staffing (world : World) : Prop where
  drawn : ∀ id job lease, world.jobs id = some job → job.leaseId = some lease → ∃ claim ∈ world.claims,
    claim.lease = lease
  own : ∀ id job claim, world.jobs id = some job → claim ∈ world.claims → job.leaseId = some claim.lease →
    claim.stage = job.stage
  entered : ∀ id job, world.jobs id = some job → job.address.isSome → job.stage ∈ addressStages

theorem staffing_empty : Staffing .empty where
  drawn := fun _ _ _ row => by cases row
  own := fun _ _ _ row => by cases row
  entered := fun _ _ row => by cases row

theorem Job.restartOr_shape (now : Time) (leave : Job → Job) (job : Job) :
    (job.request.restartStatic = true ∧ (job.restartOr now leave).stage = .static ∧
      (job.restartOr now leave).status = .queued) ∨
        (job.request.restartStatic = false ∧ (job.restartOr now leave).stage = (leave job).stage ∧
          (job.restartOr now leave).status = (leave job).status ∧
          (job.restartOr now leave).request.restartStatic = (leave job).request.restartStatic) := by
  unfold Job.restartOr Job.restartStaticIfFlagged
  by_cases flagged : job.request.restartStatic
  · simp [flagged]
  · simp [flagged,Job.release]

theorem Job.failTerminal_shape (now : Time) (error kind : String) (retryCount : Option Nat) (job : Job) :
    (job.failTerminal now error kind retryCount).status = .failedTerminal ∧
      ((job.request.restartStatic = true ∧ (job.failTerminal now error kind retryCount).stage = .static) ∨
        (job.request.restartStatic = false ∧ (job.failTerminal now error kind retryCount).stage = job.stage)) := by
  unfold Job.failTerminal Job.restartStaticIfFlagged
  by_cases flagged : job.request.restartStatic
  · simp [flagged,Job.release]
  · simp [flagged,Job.release]

theorem Call.write_stage (now : Time) {call : Call} (job : Job)
    (follows : call.follows address own) :
    (call.write now job).stage = job.stage ∨ (call.write now job).stage = .static ∨
    (call.write now job).stage ∈ routes address own := by
  cases call with
  | advance next detail lease =>
    cases Job.restartOr_shape now _ job with
    | inl restart => exact .inr (.inl restart.2.1)
    | inr leave =>
      right
      right
      have there : (write now (.advance next detail lease) job).stage = next := leave.2.1
      rw [there]
      exact follows.2
  | complete detail lease =>
    cases Job.restartOr_shape now _ job with
    | inl restart => exact .inr (.inl restart.2.1)
    | inr leave =>
      right
      right
      have there : (write now (.complete detail lease) job).stage = .done := leave.2.1
      rw [there]
      exact follows
  | requeue error retryCount nextAttemptAt lease =>
    cases Job.restartOr_shape now _ job with
    | inl restart => exact .inr (.inl restart.2.1)
    | inr leave => exact .inl leave.2.1
  | failTerminal error kind retryCount lease =>
    cases (Job.failTerminal_shape now error kind retryCount job).2 with
    | inl restart => exact .inr (.inl restart.2)
    | inr leave => exact .inl leave.2
  | _ => exact .inl rfl

theorem routes_entered (known : address.isSome) (here : stage ∈ addressStages)
    (routed : onward ∈ routes address stage) : onward ∈ addressStages := by
  cases stage with
  | discovery =>
    simp only [routes,known,if_true,mem_singleton] at routed
    subst routed
    decide
  | dappCrawl | defillamaScan | selection => exact absurd here (by decide)
  | done => cases routed
  | _ => revert routed; cases onward <;> simp [routes,addressStages]

theorem claims_after {world : World} (made : claim ∈ (world.after event).claims) :
    claim ∈ world.claims ∨ ∃ worker ttl, event = .claim claim.job claim.stage worker claim.lease ttl := by
  cases event with
  | claim id stage worker lease ttl =>
    cases made with
    | head => exact .inr ⟨worker,ttl,rfl⟩
    | tail _ older => exact .inl older
  | _ => exact .inl made

theorem Staffing.after_entered (staffing : Staffing world) (enabled : world.enabled event)
    (policy : staffed world event) {id : JobId} (row : (world.after event).jobs id = some later)
    (known : later.address.isSome) : later.stage ∈ addressStages := by
  have touch := event.touch world.now id (world.jobs id)
  rw [← after_jobs,row] at touch
  generalize present : world.jobs id = before at touch
  cases touch with
  | kept => exact staffing.entered id later present known
  | created address stage request =>
    have first : stage = .discovery := policy known
    show stage ∈ addressStages
    subst first
    decide
  | @claimed _ job stage worker lease ttl => exact staffing.entered id job present known
  | @wrote _ job call admitted =>
    obtain ⟨claim,made,_,presents,follows⟩ := policy
    have same : claim.stage = job.stage := staffing.own id job claim present made (admitted _ presents)
    have address : job.address.isSome := call.write_address world.now job ▸ known
    have entered : job.stage ∈ addressStages := staffing.entered id job present address
    have followed := follows job present
    rw [same] at followed
    cases write_stage world.now job followed with
    | inl stayed => rw [stayed]; exact entered
    | inr moved =>
      cases moved with
      | inl restart => rw [restart]; decide
      | inr routed => exact routes_entered address entered routed
  | @failed _ job error => exact staffing.entered id job present known
  | @reclaimed _ job _ _ stuck => exact staffing.entered id job present known
  | @converted _ job _ context success =>
    have entered : job.stage ∈ addressStages := staffing.entered id job present ((conversion success).2 ▸ known)
    cases (conversion success).1 with
    | flagged _ _ _ _ stage _ => rw [stage]; exact entered
    | restarted _ stage _ => rw [stage]; decide
    | ahead _ _ _ _ stage _ _ => rw [stage]; exact entered

theorem Staffing.step (before later : World) (staffing : Staffing before) (step : Step staffed before later) :
    Staffing later := by
  obtain ⟨event,enabled,policy,rfl⟩ := step
  refine ⟨?_,?_,fun id job row known => staffing.after_entered enabled policy row known⟩
  · intro id job lease row carries
    have touch := event.touch before.now id (before.jobs id)
    rw [← after_jobs,row] at touch
    cases touch.lease_origin carries with
    | inl drawn =>
      obtain ⟨stage,worker,ttl,rfl,_⟩ := drawn
      exact ⟨⟨id,lease,stage⟩,mem_cons_self,rfl⟩
    | inr held =>
      obtain ⟨earlier,present,carried,_⟩ := held
      obtain ⟨claim,made,same⟩ := staffing.drawn id earlier lease present carried
      exact ⟨claim,claims_kept made,same⟩
  · intro id job claim row made carries
    have touch := event.touch before.now id (before.jobs id)
    rw [← after_jobs,row] at touch
    cases touch.lease_origin carries with
    | inl drawn =>
      obtain ⟨stage,worker,ttl,rfl,earlier,present,rfl⟩ := drawn
      cases claims_after made with
      | inl older => exact absurd rfl (enabled.2 claim older)
      | inr fresh =>
        obtain ⟨worker',ttl',same⟩ := fresh
        obtain ⟨claimed,present',claimable⟩ := enabled.1
        rw [present] at present'
        cases present'
        cases same
        simp only [Job.claimable,Bool.and_eq_true,decide_eq_true_eq] at claimable
        exact claimable.1.1.symm
    | inr held =>
      obtain ⟨earlier,present,carried,stage,_⟩ := held
      cases claims_after made with
      | inl older => exact (staffing.own id earlier claim present older carried).trans stage.symm
      | inr fresh =>
        obtain ⟨worker,ttl,rfl⟩ := fresh
        obtain ⟨other,older,same⟩ := staffing.drawn id earlier claim.lease present carried
        exact absurd same (enabled.2 other older)

-- What a converted job may be while no static stage has started since.
inductive AwaitsStatic (job : Job) : Prop
  | flagged (flag : job.request.restartStatic = true) (uncompleted : job.status ≠ .completed)
  | restarted (stage : job.stage = .static) (lease : job.leaseId = none) (idle : job.status ≠ .processing)
    (uncompleted : job.status ≠ .completed)
  | upstream (stage : job.stage = .discovery) (uncompleted : job.status ≠ .completed)

theorem AwaitsStatic.uncompleted (awaits : AwaitsStatic job) : job.status ≠ .completed := by
  cases awaits with
  | flagged _ uncompleted => exact uncompleted
  | restarted _ _ _ uncompleted => exact uncompleted
  | upstream _ uncompleted => exact uncompleted

theorem awaits_restarted (stage : job.stage = .static) (lease : job.leaseId = none) (status : job.status = .queued) :
    AwaitsStatic job := by
  refine .restarted stage lease ?_ ?_
  · rw [status]; decide
  · rw [status]; decide

theorem Conversion.awaits (conversion : Conversion job converted) (running : job.status = .processing)
    (entered : job.stage ∈ addressStages) : AwaitsStatic converted := by
  cases conversion with
  | flagged _ _ flag _ _ status =>
    refine .flagged flag ?_
    rw [status,running]
    decide
  | restarted lease stage status => exact awaits_restarted stage lease status
  | ahead idle before _ _ stage status _ =>
    have discovery : job.stage = .discovery := by
      generalize job.stage = reached at entered idle before
      cases reached with
      | discovery => rfl
      | static => exact absurd ⟨running,by decide⟩ idle
      | dappCrawl | defillamaScan | selection => exact absurd entered (by decide)
      | _ => exact absurd (by decide) before
    refine .upstream (stage.trans discovery) ?_
    rw [status,running]
    decide

theorem Conversion.awaits_again (conversion : Conversion job converted) (awaits : AwaitsStatic job) :
    AwaitsStatic converted := by
  cases conversion with
  | flagged _ _ flag _ _ status => exact .flagged flag (status ▸ awaits.uncompleted)
  | restarted lease stage status => exact awaits_restarted stage lease status
  | ahead _ _ flag lease stage status _ =>
    cases awaits with
    | flagged set uncompleted => exact .flagged (flag.trans set) (status ▸ uncompleted)
    | restarted static released idle uncompleted =>
      exact .restarted (stage.trans static) (lease.trans released) (status ▸ idle) (status ▸ uncompleted)
    | upstream discovery uncompleted => exact .upstream (stage.trans discovery) (status ▸ uncompleted)

theorem Call.write_flagged (now : Time) (call : Call) (flag : job.request.restartStatic = true)
    (uncompleted : job.status ≠ .completed) : AwaitsStatic (call.write now job) := by
  have exits : ∀ leave : Job → Job, AwaitsStatic (job.restartOr now leave) := by
    intro leave
    cases Job.restartOr_shape now leave job with
    | inl restart => exact awaits_restarted restart.2.1 (Job.restartOr_lease now leave job) restart.2.2
    | inr leaves =>
      rw [flag] at leaves
      cases leaves.1
  cases call with
  | heartbeat lease ttl => exact .flagged flag uncompleted
  | advance next detail lease =>
    unfold write Job.advance
    exact exits _
  | complete detail lease =>
    unfold write Job.complete
    exact exits _
  | defer detail delay lease => exact .flagged flag nofun
  | requeue error retryCount nextAttemptAt lease =>
    unfold write Job.requeue
    exact exits _
  | failTerminal error kind retryCount lease =>
    obtain ⟨status,stage⟩ := Job.failTerminal_shape now error kind retryCount job
    cases stage with
    | inl restart =>
      refine .restarted restart.2 rfl ?_ ?_
      · rw [show (write now (.failTerminal error kind retryCount lease) job).status = .failedTerminal from status]
        decide
      · rw [show (write now (.failTerminal error kind retryCount lease) job).status = .failedTerminal from status]
        decide
    | inr leaves =>
      rw [flag] at leaves
      cases leaves.1

theorem Call.write_upstream (now : Time) (call : Call) (known : job.address.isSome) (stage : job.stage = .discovery)
    (uncompleted : job.status ≠ .completed) (follows : call.follows job.address .discovery) :
    AwaitsStatic (call.write now job) := by
  cases flagged : job.request.restartStatic with
  | true => exact call.write_flagged now flagged uncompleted
  | false =>
    have leaves : ∀ leave : Job → Job, (job.restartOr now leave).stage = (leave job).stage ∧
      (job.restartOr now leave).status = (leave job).status := by
      intro leave
      cases Job.restartOr_shape now leave job with
      | inl restart =>
        rw [flagged] at restart
        cases restart.1
      | inr leaves => exact ⟨leaves.2.1,leaves.2.2.1⟩
    cases call with
    | heartbeat lease ttl => exact .upstream stage uncompleted
    | advance next detail lease =>
      obtain ⟨_,routed⟩ := follows
      simp only [routes,known,if_true,mem_singleton] at routed
      subst routed
      exact awaits_restarted (leaves _).1 (Job.restartOr_lease now _ job) (leaves _).2
    | complete detail lease =>
      have routed : JobStage.done ∈ routes job.address .discovery := follows
      simp only [routes,known,if_true,mem_singleton] at routed
      cases routed
    | defer detail delay lease => exact .upstream stage nofun
    | requeue error retryCount nextAttemptAt lease =>
      unfold write Job.requeue
      refine .upstream ((leaves _).1.trans stage) ?_
      rw [(leaves _).2]
      exact nofun
    | failTerminal error kind retryCount lease =>
      obtain ⟨status,stages⟩ := Job.failTerminal_shape now error kind retryCount job
      cases stages with
      | inl restart =>
        rw [flagged] at restart
        cases restart.1
      | inr leaves =>
        unfold write
        refine .upstream (leaves.2.trans stage) ?_
        rw [status]
        decide

def Owed (id : JobId) (world : World) : Prop :=
  Staffing world ∧ ∃ job, world.jobs id = some job ∧ job.address.isSome ∧ AwaitsStatic job

def staffedWithoutStatic (id : JobId) (world : World) (event : Event) : Prop :=
  staffed world event ∧ ¬ event.startsStatic id

theorem AwaitsStatic.touch {id : JobId} (staffing : Staffing world)
    (enabled : world.enabled event) (policy : staffedWithoutStatic id world event) (present : world.jobs id = some job)
    (known : job.address.isSome) (awaits : AwaitsStatic job) (touch : Touch world.now event id (some job) row) :
    ∃ later, row = some later ∧ AwaitsStatic later := by
  obtain ⟨policy,unstarted⟩ := policy
  cases touch with
  | kept => exact ⟨job,rfl,awaits⟩
  | created address stage request =>
    have absent : world.jobs id = none := enabled
    rw [present] at absent
    cases absent
  | claimed stage worker lease ttl =>
    refine ⟨_,rfl,?_⟩
    cases awaits with
    | flagged flag _ => exact .flagged flag nofun
    | restarted static _ _ _ =>
      obtain ⟨⟨claimed,present',claimable⟩,_⟩ := enabled
      rw [present] at present'
      cases present'
      simp only [Job.claimable,Bool.and_eq_true,decide_eq_true_eq] at claimable
      exact absurd ⟨rfl,claimable.1.1.symm.trans static⟩ unstarted
    | upstream discovery _ => exact .upstream discovery nofun
  | @wrote _ _ call admitted =>
    refine ⟨_,rfl,?_⟩
    obtain ⟨claim,made,_,presents,follows⟩ := policy
    have held : job.leaseId = some claim.lease := admitted _ presents
    cases awaits with
    | flagged flag uncompleted => exact call.write_flagged world.now flag uncompleted
    | restarted _ released _ _ =>
      rw [released] at held
      cases held
    | upstream discovery uncompleted =>
      have own : claim.stage = .discovery := (staffing.own id job claim present made held).trans discovery
      exact call.write_upstream world.now known discovery uncompleted (own ▸ follows job present)
  | failed error =>
    refine ⟨_,rfl,?_⟩
    cases awaits with
    | flagged flag _ => exact .flagged flag nofun
    | restarted static released _ _ => exact .restarted static released nofun nofun
    | upstream discovery _ => exact .upstream discovery nofun
  | reclaimed stuck =>
    refine ⟨_,rfl,?_⟩
    cases awaits with
    | flagged flag _ => exact .flagged flag nofun
    | restarted static _ _ _ => exact .restarted static rfl nofun nofun
    | upstream discovery _ => exact .upstream discovery nofun
  | converted success => exact ⟨_,rfl,(conversion success).1.awaits_again awaits⟩

theorem Owed.step {id : JobId} (before later : World) (owed : Owed id before)
    (step : Step (staffedWithoutStatic id) before later) : Owed id later := by
  obtain ⟨staffing,job,present,known,awaits⟩ := owed
  obtain ⟨event,enabled,policy,rfl⟩ := step
  refine ⟨staffing.step before _ ⟨event,enabled,policy.1,rfl⟩,?_⟩
  have touch := event.touch before.now id (before.jobs id)
  rw [← after_jobs,present] at touch
  obtain ⟨written,row,still⟩ := awaits.touch staffing enabled policy present known touch
  rw [row] at touch
  have existing : ∀ address stage request, event ≠ .create id address stage request := by
    intro address stage request same
    subst same
    have absent : before.jobs id = none := enabled
    rw [present] at absent
    cases absent
  exact ⟨written,row,touch.address existing ▸ known,still⟩

-- Until a static stage is claimed, a job converted while it ran is not completed.
theorem conversion_not_skipped {before later : World} (id : JobId) (context : ProxyContext) {job converted final : Job}
    (reached : Run staffed .empty before) (row : before.jobs id = some job) (running : job.status = .processing)
    (policy : staffed before (.convert id context))
    (success : convertImplJobToProxyContext before.now context job = some converted)
    (run : Run (staffedWithoutStatic id) (before.after (.convert id context)) later)
    (finalRow : later.jobs id = some final) :
    final.status ≠ .completed := by
  have staffing : Staffing before := General.run_keeps Staffing.step reached staffing_empty
  have known : job.address.isSome := policy job row
  have awaits : AwaitsStatic converted := (conversion success).1.awaits running (staffing.entered id job row known)
  have written : (before.after (.convert id context)).jobs id = some converted := by
    simp only [after_jobs,Event.row,if_true,row,Option.map_some,success,Option.getD_some]
  have owed : Owed id (before.after (.convert id context)) :=
    ⟨staffing.step before _ ⟨.convert id context,trivial,policy,rfl⟩,converted,written,(conversion success).2 ▸ known,
      awaits⟩
  obtain ⟨_,reachedJob,present,_,still⟩ := General.run_keeps Owed.step run owed
  rw [finalRow] at present
  cases present
  exact still.uncompleted

-- An implementation's static stage is running when its proxy is found.
def runningStatic : World := empty.play
  [.create 0 (some "0xaa") .discovery {},.claim 0 .discovery "w" 1 60,.act 0 (.advance .static "" (some 1)),
      .claim 0 .static "w" 2 60]

theorem runningStatic_reached : Run staffed .empty runningStatic := by
  refine run_play ⟨rfl,fun _ => rfl,⟨⟨_,rfl,by decide⟩,nofun⟩,trivial,trivial,?_,⟨⟨_,rfl,by decide⟩,?_⟩,trivial,trivial⟩
  · refine ⟨⟨0,1,.discovery⟩,mem_cons_self,rfl,rfl,?_⟩
    intro job row
    cases row
    exact ⟨nofun,by decide⟩
  · intro earlier made
    cases made with
    | head => decide
    | tail _ older => cases older

theorem conversion_not_skipped_static :
    let converted := runningStatic.after (.convert 0 {proxyAddress:="0xbb"})
  ∃ final, (converted.after (.act 0 (.complete "" (some 2)))).jobs 0 = some final ∧ final.status ≠ .completed := by
  refine ⟨_,rfl,?_⟩
  refine conversion_not_skipped 0 {proxyAddress:="0xbb"} runningStatic_reached rfl rfl ?_ rfl
    (.single ⟨.act 0 (.complete "" (some 2)),trivial,⟨?_,nofun⟩,rfl⟩) rfl
  · intro job row
    cases row
    rfl
  · refine ⟨⟨0,2,.static⟩,mem_cons_self,rfl,rfl,?_⟩
    intro job row
    cases row
    exact mem_cons_of_mem _ mem_cons_self

end Psat.Queue
