import Psat.Queue.Interleaving

namespace Psat.Queue
open World (Run after_jobs anyEvent run_play)

-- `fail_job` is the one exit that neither asks for a lease nor takes it off.
def failsUnleased (world : World) : Event → Prop
  | .fail id _ => ∀ job, world.jobs id = some job → job.leaseId = none
  | _ => True

namespace World

-- The lease was drawn, and the row does not carry it.
def Spent (id : JobId) (lease : Lease) (world : World) : Prop :=
  (∃ claim ∈ world.claims, claim.lease = lease) ∧ ∀ job, world.jobs id = some job → job.leaseId ≠ some lease

-- The lease was drawn, and a row that carries it is being processed.
def Serving (id : JobId) (lease : Lease) (world : World) : Prop :=
  (∃ claim ∈ world.claims, claim.lease = lease) ∧
      ∀ job, world.jobs id = some job → job.leaseId = some lease → job.status = .processing

variable {world : World}

theorem drawn_kept (drawn : ∃ claim ∈ world.claims, claim.lease = lease) :
    ∃ claim ∈ (world.after event).claims, claim.lease = lease := by
  obtain ⟨claim,made,same⟩ := drawn
  exact ⟨claim,claims_kept made,same⟩

variable {id : JobId}

theorem not_redrawn
    (drawn : ∃ claim ∈ world.claims, claim.lease = lease) (enabled : world.enabled (.claim id stage worker lease ttl)) :
    False := by
  obtain ⟨claim,made,same⟩ := drawn
  exact enabled.2 claim made same

theorem Spent.step (before later : World) (spent : before.Spent id lease) (step : Step allowed before later) :
    later.Spent id lease := by
  obtain ⟨event,enabled,_,rfl⟩ := step
  refine ⟨drawn_kept spent.1,?_⟩
  intro job row carries
  have touch := event.touch before.now id (before.jobs id)
  rw [← after_jobs,row] at touch
  cases touch.lease_origin carries with
  | inl drawn =>
    obtain ⟨stage,worker,ttl,rfl,_⟩ := drawn
    exact not_redrawn spent.1 enabled
  | inr held =>
    obtain ⟨earlier,present,carried,_⟩ := held
    exact spent.2 earlier present carried

theorem Serving.step (before later : World) (serving : before.Serving id lease)
    (step : Step failsUnleased before later) : later.Serving id lease := by
  obtain ⟨event,enabled,careful,rfl⟩ := step
  refine ⟨drawn_kept serving.1,?_⟩
  intro job row carries
  have touch := event.touch before.now id (before.jobs id)
  rw [← after_jobs,row] at touch
  cases touch.lease_origin carries with
  | inl drawn =>
    obtain ⟨stage,worker,ttl,rfl,_⟩ := drawn
    exact absurd enabled (not_redrawn serving.1)
  | inr held =>
    obtain ⟨earlier,present,carried,_,status⟩ := held
    cases status with
    | inl same => exact same.trans (serving.2 earlier present carried)
    | inr failed =>
      obtain ⟨error,rfl⟩ := failed
      have unleased : earlier.leaseId = none := careful earlier present
      rw [unleased] at carried
      cases carried

theorem serving_claimed
    (enabled : world.enabled (.claim id stage worker lease ttl)) :
    (world.after (.claim id stage worker lease ttl)).Serving id lease := by
  refine ⟨⟨⟨id,lease,stage⟩,List.mem_cons_self,rfl⟩,?_⟩
  intro job row _
  obtain ⟨⟨claimed,present,_⟩,_⟩ := enabled
  simp only [after_jobs,Event.row,if_true,present,Option.map_some,Option.some.injEq] at row
  rw [← row]
  rfl

theorem Serving.spent (serving : world.Serving id lease)
    (left : ∀ job, world.jobs id = some job → job.status ≠ .processing) : world.Spent id lease :=
  ⟨serving.1,fun job row carries => left job row (serving.2 job row carries)⟩

end World

theorem changes_carried {world : World} {id : JobId} (presents : call.presents = some lease)
    (changes : (world.after (.act id call)).jobs id ≠ world.jobs id) : ∃ job, world.jobs id = some job ∧
    job.leaseId = some lease := by
  simp only [after_jobs,Event.row] at changes
  cases row : world.jobs id with
  | none =>
    rw [row,call.after_none] at changes
    exact absurd rfl changes
  | some job =>
    rw [row] at changes
    cases call.after_some world.now job with
    | inl wrote => exact ⟨job,rfl,wrote.1 lease presents⟩
    | inr kept =>
      rw [kept.2] at changes
      exact absurd rfl changes

theorem Job.restartOr_status {job : Job} (leaves : (leave job).status ≠ .failed) :
    (job.restartOr now leave).status ≠ .failed := by
  unfold Job.restartOr Job.restartStaticIfFlagged
  by_cases flagged : job.request.restartStatic
  · simp [flagged]
  · simpa [flagged,Job.release] using leaves

theorem failed_answers {world : World} {id : JobId} (error : String) (row : world.jobs id = some job)
    (held : job.leaseId = some lease) :
    (((world.after (.fail id error)).after (.act id (.complete "" (some lease)))).jobs id) ≠
    (world.after (.fail id error)).jobs id := by
  have failed : (world.after (.fail id error)).jobs id = some (job.fail world.now error) := by
    simp only [after_jobs,Event.row,if_true,row,Option.map_some]
  intro unchanged
  rw [after_jobs,failed] at unchanged
  simp only [Event.row,if_true] at unchanged
  cases (Call.complete "" (some lease)).after_some (world.after (.fail id error)).now (job.fail world.now error) with
  | inl wrote =>
    rw [wrote.2,Option.some.injEq] at unchanged
    have status : ((job.fail world.now error).complete (world.after (.fail id error)).now "").status = .failed :=
      congrArg Job.status unchanged
    exact Job.restartOr_status (by simp) status
  | inr kept =>
    have admitted : (Call.complete "" (some lease)).admitted (job.fail world.now error) := by
      intro token presented
      cases presented
      exact held
    exact kept.1 admitted

-- Between a claim and its end no `fail_job` may hit a leased row.
theorem lease_fence {start left later : World} {id : JobId} {stage : JobStage} {worker : String}
    {lease : Lease} {ttl : Nat}
    (enabled : start.enabled (.claim id stage worker lease ttl))
    (served : Run failsUnleased (start.after (.claim id stage worker lease ttl)) left)
    (out : ∀ job, left.jobs id = some job → job.status ≠ .processing) (rest : Run anyEvent left later) :
    (∀ call : Call, call.presents = some lease → (later.after (.act id call)).jobs id = later.jobs id) ∧
    (∀ (world : World) (first second : Call) (mine other : Lease), first.presents = some mine →
      second.presents = some other →
        (world.after (.act id first)).jobs id ≠ world.jobs id → (world.after (.act id second)).jobs id ≠ world.jobs id →
          mine = other) ∧
    ∀ (world : World) (job : Job) (held : Lease) (error : String), world.jobs id = some job → job.leaseId = some held →
      (∀ failed, (world.after (.fail id error)).jobs id = some failed → failed.status ≠ .processing) ∧
        ∃ call : Call, call.presents = some held ∧
          ((world.after (.fail id error)).after (.act id call)).jobs id ≠ (world.after (.fail id error)).jobs id := by
  refine ⟨?_,?_,?_⟩
  · intro call presents
    have serving : left.Serving id lease := General.run_keeps World.Serving.step served (World.serving_claimed enabled)
    have spent : later.Spent id lease := General.run_keeps World.Spent.step rest (serving.spent out)
    by_contra changes
    obtain ⟨job,row,carries⟩ := changes_carried presents changes
    exact spent.2 job row carries
  · intro world first second mine other presents presents' changes changes'
    obtain ⟨job,row,carries⟩ := changes_carried presents changes
    obtain ⟨job',row',carries'⟩ := changes_carried presents' changes'
    rw [row] at row'
    cases row'
    exact Option.some.inj (carries.symm.trans carries')
  · intro world job held error row carries
    constructor
    · intro failed failedRow
      simp only [after_jobs,Event.row,if_true,row,Option.map_some,Option.some.injEq] at failedRow
      rw [← failedRow]
      intro processing
      cases processing
    · exact ⟨.complete "" (some held),rfl,failed_answers error row carries⟩

-- A job is created, claimed under lease 7 and reclaimed once the lease has run out.
def claimedWorld : World := World.empty.play [.create 0 (some "0xaa") .discovery {}]

def reclaimedEvents : List Event := [.tick 100,.reclaim 900 fun _ => false]

theorem lease_fence_reclaimed :
    let served := claimedWorld.after (.claim 0 .discovery "w" 7 60)
  let left := served.play reclaimedEvents
  let again := left.after (.claim 0 .discovery "v" 8 60)
  (again.after (.act 0 (.complete "" (some 7)))).jobs 0 = again.jobs 0 := by
  have claims : claimedWorld.enabled (.claim 0 .discovery "w" 7 60) := ⟨⟨_,rfl,by decide⟩,fun _ made => by cases made⟩
  have expired : World.plays failsUnleased (claimedWorld.after (.claim 0 .discovery "w" 7 60)) reclaimedEvents :=
    ⟨Nat.zero_le 100,trivial,trivial,trivial,trivial⟩
  refine (lease_fence claims (run_play expired) ?_
    (.single ⟨.claim 0 .discovery "v" 8 60,⟨⟨_,rfl,by decide⟩,?_⟩,trivial,rfl⟩)).1 _ rfl
  · intro job row
    cases row
    decide
  · intro earlier made
    cases made with
    | head => decide
    | tail _ older => cases older

-- `fail_job` takes the job out of processing, and the old lease completes it.
theorem failed_lease_completes :
    ∃ (start left : World) (call : Call), Run anyEvent .empty start ∧ start.enabled (.claim 0 .discovery "w" 7 60) ∧
      Run anyEvent (start.after (.claim 0 .discovery "w" 7 60)) left ∧
      (∀ job, left.jobs 0 = some job → job.status ≠ .processing) ∧ call.presents = some 7 ∧
      (left.after (.act 0 call)).jobs 0 ≠ left.jobs 0 := by
  refine ⟨claimedWorld,(claimedWorld.after (.claim 0 .discovery "w" 7 60)).after (.fail 0 "boom"),.complete "" (some 7),
    run_play ⟨rfl,trivial,trivial⟩,⟨⟨_,rfl,by decide⟩,fun _ made => by cases made⟩,
    .single ⟨.fail 0 "boom",trivial,trivial,rfl⟩,?_,rfl,?_⟩
  · intro job row
    cases row
    decide
  · intro same
    have status := congrArg (Option.map Job.status) same
    revert status
    decide

end Psat.Queue
