import Psat.Queue.ProxyContext
import Psat.Queue.Work

namespace Psat.Queue.StalePolicy
open List

-- `refresh_stale_policy`: none when there is nothing to re-run.
def refreshStalePolicy (now : Time) (superseded chainEnabled addressHeld : Bool) : Option Job → Except Work.WorkPending
    (Option Job)
  | none => .ok none
  | some job =>
    if job.status = .failedTerminal then .ok none
    else if superseded then .ok none
    else if job.status ≠ .completed ∨ job.stage ≠ .done then .error .pending
    else if !chainEnabled then .error .pending
    else if addressHeld then .error .pending
    else .ok (some (job.requeuePolicy now "Re-running policy: an input read from another contract changed"))

-- A policy run commits the deletion of the mark, and then reads its inputs.
inductive Phase
  | started
  | cleared
  | read
deriving DecidableEq

inductive Record
  | marked
  | read
deriving DecidableEq

-- One job, its `stale_policy` row, the run that holds its lease, and the runs that lost it.
structure World where
  now : Time
  job : Option Job
  superseded : Bool
  stale : Option Work.IndexerWork
  claims : List Work.Claim
  run : Option Phase
  strays : List Phase
  history : List Record

inductive Event
  | tick (now : Time)
  | mark
  | claimJob (stage : JobStage) (worker : String) (lease : Lease) (ttl : Nat)
  | clear
  | read
  | act (call : Call)
  | crash
  | reclaim (timeout : Time)
  | strayClear
  | strayRead
  | strayEnd (phase : Phase)
  | supersede
  | delete
  | claimOne (token : Lease)
  | drain (claim : Work.Claim) (chainEnabled addressHeld : Bool)

def advances : Call → Bool
  | .advance _ _ _ => true
  | _ => false

def beats : Call → Bool
  | .heartbeat _ _ => true
  | _ => false

-- The branch of `drain_reconciliation` for the kind, one transaction.
def drained (now : Time) (superseded chainEnabled addressHeld : Bool) (claim : Work.Claim)
    (job : Option Job) (stale : Option Work.IndexerWork) :
    Option Job × Option Work.IndexerWork :=
  match Work.lockClaim now claim stale,refreshStalePolicy now superseded chainEnabled addressHeld job with
  | .ok (),.ok (some requeued) => (some requeued,Work.finish now claim true true stale)
  | .ok (),.ok none => (job,Work.finish now claim true true stale)
  | _,_ => (job,Work.finish now claim false false stale)

def losesRead : Event → Bool
  | .strayEnd .cleared => true
  | _ => false

namespace World

-- Workers act under the job's lease; policy advances the job only after its read.
def enabled (world : World) : Event → Prop
  | .tick now => world.now ≤ now
  | .claimJob stage _ _ _ => ∃ job, world.job = some job ∧ job.claimable world.now stage
  | .clear => world.run = some .started
  | .read => world.run = some .cleared
  | .act call =>
    ∃ job lease, world.job = some job ∧ job.status = .processing ∧ job.leaseId = some lease ∧
      call.presents = some lease ∧
    call.follows job.address job.stage ∧ (job.stage = .policy → advances call → world.run = some .read)
  | .strayClear => .started ∈ world.strays
  | .strayRead => .cleared ∈ world.strays
  | .strayEnd phase => phase ∈ world.strays
  | .claimOne _ => ∃ row, world.stale = some row ∧ Work.claimable world.now row
  | .drain claim _ _ => claim ∈ world.claims
  | _ => True

def after (world : World) : Event → World
  | .tick now => {world with now:=now}
  | .mark => {world with stale:=some (Work.indexerMarkDirty world.now world.stale),history:=.marked :: world.history}
  | .claimJob stage worker lease ttl =>
    {world with
       job := world.job.map (Job.claim world.now worker lease ttl)
       run := if stage = .policy then some .started else none}
  | .clear => {world with stale:=none,run:=some .cleared}
  | .read => {world with run:=some .read,history:=.read :: world.history}
  | .act call => {world with job:=call.after world.now world.job,run:=if beats call then world.run else none}
  | .crash => {world with run:=none}
  | .reclaim timeout =>
    if world.job.any (Job.stuck world.now timeout) then
      {world with job:=world.job.map (Job.reclaim world.now timeout),run:=none,strays:=world.run.toList ++ world.strays}
    else world
  | .strayClear => {world with stale:=none,strays:=.cleared :: world.strays.erase .started}
  | .strayRead => {world with strays:=.read :: world.strays.erase .cleared,history:=.read :: world.history}
  | .strayEnd phase => {world with strays:=world.strays.erase phase}
  | .supersede => {world with superseded:=true}
  | .delete => {world with job:=none}
  | .claimOne token =>
    match world.stale with
    | some row =>
      let (claim,leased) := Work.claimOne world.now token row
      {world with stale:=some leased,claims:=claim :: world.claims}
    | none => world
  | .drain claim chainEnabled addressHeld =>
    let (job,stale) := drained world.now world.superseded chainEnabled addressHeld claim world.job world.stale
    {world with job,stale}

def Step (before later : World) : Prop := ∃ event, before.enabled event ∧ before.after event = later

-- No run that lost its lease ends between its clear, which no lease fences, and its read.
def CarefulStep (before later : World) : Prop :=
  ∃ event, before.enabled event ∧ losesRead event = false ∧ before.after event = later

def Initial (world : World) : Prop :=
  world.stale = none ∧ world.claims = [] ∧ world.run = none ∧ world.strays = [] ∧ world.history = [] ∧
    ∀ job, world.job = some job → job.status = .queued ∧ job.request.restartStatic = false

abbrev Reached : World → Prop := General.Reachable Initial Step

abbrev CarefullyReached : World → Prop := General.Reachable Initial CarefulStep

-- A policy run that has not read yet is queued or running.
def policyAhead (world : World) : Prop :=
  (∃ job, world.job = some job ∧ job.stage = .policy ∧
    (job.status = .queued ∨ (job.status = .processing ∧ world.run ≠ some .read))) ∨
      .cleared ∈ world.strays

def failedTerminally (world : World) : Prop := ∃ job, world.job = some job ∧ job.status = .failedTerminal

-- What answers a mark that no run has read.
def Held (world : World) : Prop :=
  world.stale.isSome ∨ world.policyAhead ∨ world.job = none ∨ world.failedTerminally ∨ world.superseded = true

-- A policy run belongs to a job in its policy stage, and no restart is flagged.
structure Sound (world : World) : Prop where
  running : ∀ phase job, world.run = some phase → world.job = some job → job.status = .processing ∧ job.stage = .policy
  unflagged : ∀ job, world.job = some job → job.request.restartStatic = false

end World

inductive Exit (call : Call) (job written : Job) : Prop
  | beat (heartbeat : beats call = true) (stage : written.stage = job.stage) (status : written.status = job.status)
  | moved (other : beats call = false) (forward : advances call = true ∨ ∃ detail lease, call = .complete detail lease)
  | queued (other : beats call = false) (stage : written.stage = job.stage) (status : written.status = .queued)
  | failed (other : beats call = false) (status : written.status = .failedTerminal)

theorem exit_unflagged (now : Time) (call : Call) (unflagged : job.request.restartStatic = false) :
    Exit call job (call.write now job) ∧ (call.write now job).request.restartStatic = false := by
  have leaves : ∀ leave : Job → Job, (job.restartOr now leave).stage = (leave job).stage ∧
    (job.restartOr now leave).status = (leave job).status ∧
    (job.restartOr now leave).request.restartStatic = (leave job).request.restartStatic := by
    intro leave
    cases Job.restartOr_shape now leave job with
    | inl restart =>
      rw [unflagged] at restart
      cases restart.1
    | inr leaves => exact leaves.2
  cases call with
  | heartbeat lease ttl => exact ⟨.beat rfl rfl rfl,unflagged⟩
  | advance next detail lease =>
    exact ⟨.moved rfl (.inl rfl),(leaves _).2.2.trans unflagged⟩
  | complete detail lease =>
    exact ⟨.moved rfl (.inr ⟨detail,lease,rfl⟩),(leaves _).2.2.trans unflagged⟩
  | defer detail delay lease => exact ⟨.queued rfl rfl rfl,unflagged⟩
  | requeue error retryCount nextAttemptAt lease =>
    exact ⟨.queued rfl (leaves _).1 (leaves _).2.1,(leaves _).2.2.trans unflagged⟩
  | failTerminal error kind retryCount lease =>
    refine ⟨.failed rfl rfl,?_⟩
    show (job.restartStaticIfFlagged.getD job).request.restartStatic = false
    simp [Job.restartStaticIfFlagged,unflagged]

-- A drain re-queues a completed job's policy, finds nothing to re-run, or keeps the row.
inductive Drained (superseded : Bool) (job : Option Job) (stale : Option Work.IndexerWork) :
    Option Job × Option Work.IndexerWork → Prop
  | requeued {completed requeued : Job} {row : Option Work.IndexerWork} (present : job = some completed)
    (finished : completed.status = .completed) (stage : requeued.stage = .policy) (status : requeued.status = .queued)
    (request : requeued.request = completed.request) : Drained superseded job stale (some requeued,row)
  | nothing {row : Option Work.IndexerWork}
    (idle : job = none ∨ (∃ failed, job = some failed ∧ failed.status = .failedTerminal) ∨ superseded = true) :
    Drained superseded job stale (job,row)
  | kept {row : Option Work.IndexerWork} (still : stale.isSome → row.isSome) : Drained superseded job stale (job,row)

theorem finish_failed_kept (now : Time) (claim : Work.Claim) (stale : Option Work.IndexerWork)
    (present : stale.isSome) :
    (Work.finish now claim false false stale).isSome := by
  cases stale with
  | none => cases present
  | some row => rfl

theorem drained_spec (now : Time) (superseded chainEnabled addressHeld : Bool) (claim : Work.Claim) (job : Option Job)
    (stale : Option Work.IndexerWork) : Drained superseded job stale
    (drained now superseded chainEnabled addressHeld claim job stale) := by
  have kept : Drained superseded job stale (job,Work.finish now claim false false stale) :=
    .kept (finish_failed_kept now claim stale)
  unfold drained
  cases Work.lockClaim now claim stale with
  | error _ => exact kept
  | ok _ =>
    cases job with
    | none => exact .nothing (.inl rfl)
    | some job =>
      unfold refreshStalePolicy
      by_cases terminal : job.status = .failedTerminal
      · simp only [terminal,if_true]
        exact .nothing (.inr (.inl ⟨job,rfl,terminal⟩))
      · simp only [terminal,if_false]
        cases superseded with
        | true => exact .nothing (.inr (.inr rfl))
        | false =>
          by_cases inFlight : job.status ≠ .completed ∨ job.stage ≠ .done
          · simp only [inFlight,if_true]
            exact kept
          · simp only [inFlight,if_false]
            have finished : job.status = .completed := by
              by_contra running
              exact inFlight (.inl running)
            cases chainEnabled with
            | false => exact kept
            | true =>
              cases addressHeld with
              | true => exact kept
              | false => exact .requeued rfl finished rfl rfl rfl

namespace World

theorem claimable_parts {now : Time} {job : Job} (claimable : job.claimable now stage = true) :
    job.stage = stage ∧ job.status = .queued := by
  simp only [Job.claimable,Bool.and_eq_true,decide_eq_true_eq] at claimable
  exact claimable.1

variable {world : World}

theorem act_row {job : Job} (present : world.job = some job) (held : job.leaseId = some lease)
    (presents : call.presents = some lease) :
    (world.after (.act call)).job = some (call.write world.now job) := by
  show call.after world.now world.job = _
  rw [present]
  cases call.after_some world.now job with
  | inl wrote => exact wrote.2
  | inr refused =>
    refine absurd ?_ refused.1
    intro token presented
    rw [presents] at presented
    cases presented
    exact held

theorem Sound.step (sound : Sound world) (enabled : world.enabled event) : Sound (world.after event) := by
  obtain ⟨running,unflagged⟩ := sound
  cases event with
  | claimJob stage worker lease ttl =>
    obtain ⟨job,present,claimable⟩ := enabled
    obtain ⟨atStage,_⟩ := claimable_parts claimable
    have written : (world.after (.claimJob stage worker lease ttl)).job = some (job.claim world.now worker lease ttl) :=
      by
      simp only [after,present,Option.map_some]
    constructor
    · intro phase claimed run there
      rw [written] at there
      cases there
      by_cases policy : stage = .policy
      · exact ⟨rfl,atStage.trans policy⟩
      · simp [after,policy] at run
    · intro claimed there
      rw [written] at there
      cases there
      exact unflagged job present
  | clear => exact ⟨fun _ job _ present => running .started job enabled present,unflagged⟩
  | read => exact ⟨fun _ job _ present => running .cleared job enabled present,unflagged⟩
  | act call =>
    obtain ⟨job,lease,present,status,held,presents,_,_⟩ := enabled
    have written := act_row present held presents
    obtain ⟨exit,flag⟩ := exit_unflagged world.now call (unflagged job present)
    constructor
    · intro phase left run there
      rw [written] at there
      cases there
      cases exit with
      | beat heartbeat stage status' =>
        have same : world.run = some phase := by simpa [after,heartbeat] using run
        rw [stage,status']
        exact running phase job same present
      | moved other _ => simp [after,other] at run
      | queued other _ _ => simp [after,other] at run
      | failed other _ => simp [after,other] at run
    · intro left there
      rw [written] at there
      cases there
      exact flag
  | crash => exact ⟨fun _ _ run => (by cases run),unflagged⟩
  | reclaim timeout =>
    by_cases stuck : world.job.any (Job.stuck world.now timeout) = true
    · simp only [after,stuck,if_true]
      refine ⟨fun _ _ run => (by cases run),?_⟩
      intro left there
      cases present : world.job with
      | none => simp [present] at there
      | some job =>
        simp only [present,Option.map_some,Option.some.injEq] at there
        rw [← there]
        unfold Job.reclaim
        split
        · exact unflagged job present
        · exact unflagged job present
    · simp only [after,stuck]
      exact ⟨running,unflagged⟩
  | delete => exact ⟨fun _ _ _ there => (by cases there),fun _ there => by cases there⟩
  | claimOne token =>
    cases present : world.stale with
    | none =>
      simp only [after,present]
      exact ⟨running,unflagged⟩
    | some row =>
      simp only [after,present]
      exact ⟨running,unflagged⟩
  | drain claim chainEnabled addressHeld =>
    have spec := drained_spec world.now world.superseded chainEnabled addressHeld claim world.job world.stale
    simp only [after]
    generalize drained world.now world.superseded chainEnabled addressHeld claim world.job world.stale = result at spec
    cases spec with
    | @requeued completed requeued row present finished stage status request =>
      constructor
      · intro phase job run
        obtain ⟨processing,_⟩ := running phase completed run present
        rw [finished] at processing
        cases processing
      · intro job there
        cases there
        rw [request]
        exact unflagged completed present
    | _ => exact ⟨running,unflagged⟩
  | _ => exact ⟨running,unflagged⟩

theorem held_ahead {job : Job} (present : world.job = some job) (policy : job.stage = .policy)
    (run : job.status = .queued ∨ (job.status = .processing ∧ world.run ≠ some .read)) : Held world :=
  .inr (.inl (.inl ⟨job,present,policy,run⟩))

theorem held_stray (cleared : .cleared ∈ world.strays) : Held world := .inr (.inl (.inr cleared))

theorem held_failed (failed : world.failedTerminally) : Held world := .inr (.inr (.inr (.inl failed)))

theorem Held.carry (held : Held before) (stale : before.stale.isSome → later.stale.isSome)
    (superseded : before.superseded = true → later.superseded = true) (gone : before.job = none → later.job = none)
    (strays : .cleared ∈ before.strays → .cleared ∈ later.strays)
    (ahead : ∀ job, before.job = some job → job.stage = .policy →
      (job.status = .queued ∨ (job.status = .processing ∧ before.run ≠ some .read)) → Held later)
    (failed : before.failedTerminally → later.failedTerminally) : Held later := by
  rcases held with present | (⟨job,there,policy,run⟩ | cleared) | absent | terminal | replaced
  · exact .inl (stale present)
  · exact ahead job there policy run
  · exact held_stray (strays cleared)
  · exact .inr (.inr (.inl (gone absent)))
  · exact held_failed (failed terminal)
  · exact .inr (.inr (.inr (.inr (superseded replaced))))

section
variable (held : Held world)
include held

theorem Held.claimJob
    (enabled : world.enabled (.claimJob stage worker lease ttl)) : Held
    (world.after (.claimJob stage worker lease ttl)) := by
  obtain ⟨job,present,claimable⟩ := enabled
  obtain ⟨atStage,queued⟩ := claimable_parts claimable
  have written : (world.after (.claimJob stage worker lease ttl)).job = some (job.claim world.now worker lease ttl) :=
    by
    simp only [after,present,Option.map_some]
  refine held.carry id id (fun absent => by rw [present] at absent; cases absent) id ?_ ?_
  · intro same there policy _
    rw [present] at there
    cases there
    have stagePolicy : stage = .policy := atStage.symm.trans policy
    exact held_ahead written policy (.inr ⟨rfl,by simp [after,stagePolicy]⟩)
  · intro failed
    obtain ⟨same,there,terminal⟩ := failed
    rw [present] at there
    cases there
    rw [queued] at terminal
    cases terminal

theorem Held.act (sound : Sound world) (enabled : world.enabled (.act call)) : Held (world.after (.act call)) := by
  obtain ⟨job,lease,present,processing,leased,presents,follows,readFirst⟩ := enabled
  have written := act_row present leased presents
  obtain ⟨exit,_⟩ := exit_unflagged world.now call (sound.unflagged job present)
  refine held.carry id id (fun absent => by rw [present] at absent; cases absent) id ?_ ?_
  · intro same there policy run
    rw [present] at there
    cases there
    have unread : world.run ≠ some .read := by
      cases run with
      | inl queued =>
        rw [processing] at queued
        cases queued
      | inr running => exact running.2
    cases exit with
    | beat heartbeat stage status =>
      exact held_ahead written (stage.trans policy)
        (.inr ⟨status.trans processing,by simpa [after,heartbeat] using unread⟩)
    | moved _ forward =>
      cases forward with
      | inl advance => exact absurd (readFirst policy advance) unread
      | inr complete =>
        obtain ⟨detail,token,rfl⟩ := complete
        have routed : JobStage.done ∈ routes job.address job.stage := follows
        rw [policy] at routed
        simp [routes] at routed
    | queued _ stage status => exact held_ahead written (stage.trans policy) (.inl status)
    | failed _ status => exact held_failed ⟨_,written,status⟩
  · intro failed
    obtain ⟨same,there,terminal⟩ := failed
    rw [present] at there
    cases there
    rw [processing] at terminal
    cases terminal

theorem Held.reclaim : Held (world.after (.reclaim timeout)) := by
  by_cases stuck : world.job.any (Job.stuck world.now timeout) = true
  · simp only [after,stuck,if_true]
    refine held.carry id id (fun absent => by simp [absent]) (fun cleared => mem_append_right _ cleared) ?_ ?_
    · intro job present policy run
      have written : world.job.map (Job.reclaim world.now timeout) = some (job.reclaim world.now timeout) :=
        by rw [present]; rfl
      have late : job.stuck world.now timeout = true := by simpa [present] using stuck
      have queued : job.reclaim world.now timeout = {job.release with status:=.queued} := if_pos late
      rw [queued] at written
      exact held_ahead written policy (.inl rfl)
    · intro failed
      obtain ⟨job,present,terminal⟩ := failed
      simp [present,Job.stuck,terminal] at stuck
  · simp only [after,stuck]
    exact held

theorem Held.drain : Held (world.after (.drain claim chainEnabled addressHeld)) := by
  have spec := drained_spec world.now world.superseded chainEnabled addressHeld claim world.job world.stale
  simp only [after]
  generalize drained world.now world.superseded chainEnabled addressHeld claim world.job world.stale = result at spec
  cases spec with
  | requeued present finished stage status request => exact held_ahead rfl stage (.inl status)
  | nothing idle =>
    rcases idle with absent | failed | replaced
    · exact .inr (.inr (.inl absent))
    · exact held_failed failed
    · exact .inr (.inr (.inr (.inr replaced)))
  | kept still => exact held.carry still id id id (fun job present policy run => held_ahead present policy run) id

theorem Held.step (sound : Sound world) (enabled : world.enabled event)
    (other : event ≠ .read) (otherwise : event ≠ .strayRead) (alive : losesRead event = false) :
    Held (world.after event) := by
  cases event with
  | tick now => exact held
  | mark => exact .inl rfl
  | claimJob stage worker lease ttl => exact held.claimJob enabled
  | clear =>
    cases present : world.job with
    | none => exact .inr (.inr (.inl present))
    | some job =>
      obtain ⟨processing,policy⟩ := sound.running .started job enabled present
      exact held_ahead present policy (.inr ⟨processing,nofun⟩)
  | read => exact absurd rfl other
  | act call => exact held.act sound enabled
  | crash =>
    refine held.carry id id id id ?_ id
    intro job present policy run
    refine held_ahead present policy ?_
    cases run with
    | inl queued => exact .inl queued
    | inr running => exact .inr ⟨running.1,nofun⟩
  | reclaim timeout => exact held.reclaim
  | strayClear => exact held_stray mem_cons_self
  | strayRead => exact absurd rfl otherwise
  | strayEnd phase =>
    refine held.carry id id id (fun cleared => ?_) (fun job present policy run => held_ahead present policy run) id
    refine (mem_erase_of_ne ?_).mpr cleared
    intro same
    rw [← same] at alive
    cases alive
  | supersede => exact .inr (.inr (.inr (.inr rfl)))
  | delete => exact .inr (.inr (.inl rfl))
  | claimOne token =>
    cases present : world.stale with
    | none =>
      simp only [after,present]
      exact held
    | some row =>
      simp only [after,present]
      exact .inl rfl
  | drain claim chainEnabled addressHeld => exact held.drain

end

theorem history_step (world : World) (event : Event) :
    (event = .mark ∧ (world.after event).history = .marked :: world.history) ∨
    (world.after event).history = .read :: world.history ∨
    (event ≠ .read ∧ event ≠ .strayRead ∧ (world.after event).history = world.history) := by
  cases event with
  | mark => exact .inl ⟨rfl,rfl⟩
  | read => exact .inr (.inl rfl)
  | strayRead => exact .inr (.inl rfl)
  | reclaim timeout =>
    refine .inr (.inr ⟨nofun,nofun,?_⟩)
    by_cases stuck : world.job.any (Job.stuck world.now timeout) = true
    · simp only [after,stuck,if_true]
    · simp only [after,stuck]
      rfl
  | claimOne token =>
    refine .inr (.inr ⟨nofun,nofun,?_⟩)
    cases present : world.stale with
    | none => simp only [after,present]
    | some row => simp only [after,present]
  | _ => exact .inr (.inr ⟨nofun,nofun,rfl⟩)

-- A mark newer than every read is held.
def Answered (world : World) : Prop := Sound world ∧ (world.history.head? = some .marked → Held world)

theorem Answered.step (before later : World) (answered : Answered before) (step : CarefulStep before later) :
    Answered later := by
  obtain ⟨sound,held⟩ := answered
  obtain ⟨event,enabled,alive,rfl⟩ := step
  refine ⟨sound.step enabled,?_⟩
  intro newest
  rcases before.history_step event with ⟨rfl,_⟩ | history | ⟨other,otherwise,history⟩
  · exact .inl rfl
  · rw [history] at newest
    cases newest
  · rw [history] at newest
    exact (held newest).step sound enabled other otherwise alive

theorem answered_initial (world : World) (initial : Initial world) : Answered world := by
  obtain ⟨_,_,idle,_,history,fresh⟩ := initial
  refine ⟨⟨?_,fun job present => (fresh job present).2⟩,?_⟩
  · intro phase job run
    rw [idle] at run
    cases run
  · intro newest
    rw [history] at newest
    cases newest

theorem newest_unread {recent earlier : List Record} (unread : .read ∉ recent) :
    (recent ++ .marked :: earlier).head? = some .marked := by
  cases recent with
  | nil => rfl
  | cons record rest =>
    cases record with
    | marked => rfl
    | read => exact absurd mem_cons_self unread

end World

-- A committed mark's row is there, or its inputs were or will be read, or the job is over.
def World.Kept (world : World) : Prop :=
  ∀ recent earlier, world.history = recent ++ .marked :: earlier →
    world.stale.isSome ∨ .read ∈ recent ∨ world.policyAhead ∨ world.job = none ∨ world.failedTerminally ∨
      world.superseded = true

theorem mark_forces_read {world : World} (reached : World.CarefullyReached world) : world.Kept := by
  intro recent earlier mark
  have answered : World.Answered world := reached.invariant World.answered_initial World.Answered.step
  by_cases read : .read ∈ recent
  · exact .inr (.inl read)
  · have newest : world.history.head? = some .marked := mark ▸ World.newest_unread read
    rcases answered.2 newest with present | rest
    · exact .inl present
    · exact .inr (.inr rest)

def fresh : World := ⟨0,some (createJob 0 (some "0xaa") .policy {}),false,none,[],none,[],[]⟩

def markedLate : World := [Event.claimJob .policy "w" 1 60,.clear,.read,.mark,.act (.advance .coverage "" (some 1)),
  .claimJob .coverage "w" 2 60,.act (.complete "" (some 2)),.claimOne 3,
    .drain ⟨1,3,0⟩ true false].foldl World.after fresh

theorem fresh_initial : World.Initial fresh := by
  refine ⟨rfl,rfl,rfl,rfl,rfl,?_⟩
  intro job present
  cases present
  exact ⟨rfl,rfl⟩

theorem markedLate_reached : World.CarefullyReached markedLate := by
  have ran :=
    ((General.Reachable.start fresh_initial : World.CarefullyReached fresh).next
      ⟨.claimJob .policy "w" 1 60,⟨_,rfl,by decide⟩,rfl,rfl⟩).next ⟨.clear,rfl,rfl,rfl⟩ |>.next
      ⟨.read,rfl,rfl,rfl⟩ |>.next ⟨.mark,trivial,rfl,rfl⟩
  have advanced := ran.next ⟨.act (.advance .coverage "" (some 1)),
    ⟨_,1,rfl,rfl,rfl,rfl,⟨nofun,by decide⟩,fun _ _ => rfl⟩,rfl,rfl⟩
  have covered := advanced.next ⟨.claimJob .coverage "w" 2 60,⟨_,rfl,by decide⟩,rfl,rfl⟩
  have completed := covered.next ⟨.act (.complete "" (some 2)),⟨_,2,rfl,rfl,rfl,rfl,mem_cons_self,nofun⟩,rfl,rfl⟩
  exact (completed.next ⟨.claimOne 3,⟨_,rfl,by decide⟩,rfl,rfl⟩).next
    ⟨.drain ⟨1,3,0⟩ true false,mem_cons_self,rfl,rfl⟩

theorem mark_forces_read_late : markedLate.stale = none ∧ markedLate.policyAhead := by
  have answered := mark_forces_read markedLate_reached [] [.read] rfl
  refine ⟨rfl,?_⟩
  rcases answered with present | read | ahead | absent | ⟨job,there,failed⟩ | replaced
  · cases present
  · cases read
  · exact ahead
  · cases absent
  · cases there
    cases failed
  · cases replaced

-- The first run loses its lease; the second reads; after the mark the first clears and dies.
theorem stray_clear_loses_mark : ∃ world, World.Reached world ∧ ¬world.Kept := by
  have taken := (General.Reachable.start fresh_initial : World.Reached fresh).next
    ⟨.claimJob .policy "a" 1 60,⟨_,rfl,by decide⟩,rfl⟩
  have lost := (taken.next ⟨.tick 61,Nat.zero_le 61,rfl⟩).next ⟨.reclaim 60,trivial,rfl⟩
  have retaken := lost.next ⟨.claimJob .policy "b" 2 60,⟨_,rfl,by decide⟩,rfl⟩
  have read := (retaken.next ⟨.clear,rfl,rfl⟩).next ⟨.read,rfl,rfl⟩
  have dropped := ((read.next ⟨.mark,trivial,rfl⟩).next ⟨.strayClear,mem_cons_self,rfl⟩).next
    ⟨.strayEnd .cleared,mem_cons_self,rfl⟩
  have advanced := dropped.next ⟨.act (.advance .coverage "" (some 2)),
    ⟨_,2,rfl,rfl,rfl,rfl,⟨nofun,by decide⟩,fun _ _ => rfl⟩,rfl⟩
  have covered := advanced.next ⟨.claimJob .coverage "b" 3 60,⟨_,rfl,by decide⟩,rfl⟩
  have completed := covered.next ⟨.act (.complete "" (some 3)),⟨_,3,rfl,rfl,rfl,rfl,mem_cons_self,nofun⟩,rfl⟩
  refine ⟨_,completed,?_⟩
  intro kept
  rcases kept [] [.read] rfl with
    present | read | (⟨job,there,policy,_⟩ | cleared) | absent | ⟨job,there,failed⟩ | replaced
  · cases present
  · cases read
  · cases there
    cases policy
  · cases cleared
  · cases absent
  · cases there
    cases failed
  · cases replaced

end Psat.Queue.StalePolicy
