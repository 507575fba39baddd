import Psat.Capability.Deferrals
import Psat.Roles.Reconciler
import Psat.Roles.SolmateExact

namespace Psat.Roles.Deferred
open Psat.General List
open Psat.Capability
open Psat.Events
open Psat.Roles.Store (Job addressHasActiveJob authorityBackfilled requeuePolicy)
open Text (lower)

-- A contract with its functions' capabilities. Deleting a job clears `jobId`.
structure Contract where
  id : Nat
  address : String
  jobId : Option Nat
  functions : List CapDict

-- What a reconciliation pass reads. Jobs are listed newest first.
structure Plane where
  index : EventIndex
  jobs : List Job
  contracts : List Contract

-- A deferral that names its topics waits on each of them, else on any cursor.
def deferralBackfilled (index : EventIndex) (deferral : Deferral) : Bool :=
  if deferral.2.isEmpty then authorityBackfilled index deferral.1
  else
    let warm := (index.cursors.filter fun cursor => decide (lower cursor.key.address = deferral.1) &&
      decide (lower cursor.key.topic0 ∈ deferral.2) && cursor.backfillComplete &&
        cursorPermitsExactness cursor.enrollmentBasis cursor.firstIndexedBlockBasis).map fun cursor =>
          lower cursor.key.topic0
    deferral.2.all fun topic => decide (topic ∈ warm)

def finished (job : Job) : Bool := job.status = .completed ∧ job.stage = .done

def owned (contracts : List Contract) (job : Job) : Bool := contracts.any fun contract => contract.jobId = some job.id

def linkedRows (plane : Plane) : List (Nat × CapDict) :=
  (plane.jobs.filter finished).flatMap fun job =>
      (plane.contracts.filter fun contract => contract.jobId = some job.id).flatMap fun contract =>
          contract.functions.map fun cap => (job.id,cap)

-- Contracts without a job, with a finished job at their address that owns none.
def orphanedMarkerRows (plane : Plane) : List (Nat × CapDict × Nat) :=
  (plane.jobs.filter fun job => finished job && !owned plane.contracts job).flatMap fun job =>
      (plane.contracts.filter fun contract => contract.jobId = none ∧ job.address.map lower = some
        (lower contract.address)).flatMap
          fun contract => contract.functions.map fun cap => (job.id,cap,contract.id)

-- Every stored capability the pass reads, with the job that would rewrite it.
def storedRows (plane : Plane) : List (Nat × CapDict) :=
  linkedRows plane ++ (orphanedMarkerRows plane).map fun row => (row.1,row.2.1)

abbrev ByJob := List (Nat × List Deferral)

def collect (byJob : ByJob) (row : Nat × CapDict) : ByJob :=
  let authorities := iterDeferrals row.2
  if authorities.isEmpty then byJob
  else Dict.put row.1 (Ordered.insertKeys ((List.lookup row.1 byJob).getD []) authorities) byJob

def byJob (plane : Plane) : ByJob := (storedRows plane).foldl collect []

def noteAdoption (adopt : List (Nat × Nat)) (row : Nat × CapDict × Nat) : List (Nat × Nat) :=
  if (iterDeferrals row.2.1).isEmpty ∨ (List.lookup row.1 adopt).isSome then adopt else adopt ++ [(row.1,row.2.2)]

def adopt (plane : Plane) : List (Nat × Nat) := (orphanedMarkerRows plane).foldl noteAdoption []

structure Reconciliation where
  jobs : List Job
  contracts : List Contract
  reenqueued : List Nat := []

def Reconciliation.requeue (pass : Reconciliation) (job : Job) : Reconciliation :=
  { pass with
    jobs:=pass.jobs.map fun other => if other.id = job.id then requeuePolicy other else other
    reenqueued:=pass.reenqueued ++ [job.id] }

-- The policy stage writes by `Contract.job_id`, so an orphan is linked first.
def relink (contracts : List Contract) (job : Job) (contractId : Nat) : Option (List Contract) :=
  match contracts.find? fun contract => contract.id = contractId with
  | none => none
  | some contract =>
    if contract.jobId.isSome ∨ owned contracts job then none
    else some (contracts.map fun other => if other.id = contractId then {other with jobId:=some job.id} else other)

def reconcileJob (index : EventIndex) (limit : Nat) (adopt : List (Nat × Nat)) (pass : Reconciliation)
    (entry : Nat × List Deferral) : Reconciliation :=
  if limit ≤ pass.reenqueued.length then pass
  else if ¬ entry.2.all (deferralBackfilled index) then pass
  else
    match pass.jobs.find? fun job => job.id = entry.1 with
    | none => pass
    | some job =>
      if ¬ finished job ∨ addressHasActiveJob pass.jobs job then pass
      else
        match List.lookup entry.1 adopt with
        | none => pass.requeue job
        | some contractId =>
          match relink pass.contracts job contractId with
          | none => pass
          | some contracts => {pass with contracts}.requeue job

def reconcileDeferredResolutions (plane : Plane) (limit : Nat) : Reconciliation :=
  (byJob plane).foldl (reconcileJob plane.index limit (adopt plane)) {jobs:=plane.jobs,contracts:=plane.contracts}

theorem byJob_nodup (plane : Plane) : ((byJob plane).map Prod.fst).Nodup := by
  apply List.foldlRecOn (motive:=fun entries : ByJob => (entries.map Prod.fst).Nodup)
  · exact nodup_nil
  · intro entries distinct row _
    unfold collect
    dsimp only
    split
    · exact distinct
    · exact Dict.put_nodup _ _ distinct

theorem collect_keeps (row : Nat × CapDict) (found : List.lookup job entries = some held) (inside : d ∈ held) :
    ∃ later, List.lookup job (collect entries row) = some later ∧ d ∈ later := by
  unfold collect
  dsimp only
  split
  · exact ⟨held,found,inside⟩
  · by_cases same : job = row.1
    · subst same
      refine ⟨_,by rw [Dict.lookup_put,if_pos rfl],?_⟩
      rw [Ordered.mem_insertKeys,found]
      exact .inl inside
    · exact ⟨held,by rw [Dict.lookup_put,if_neg same,found],inside⟩

theorem collect_adds (shown : d ∈ iterDeferrals cap) : ∃ later, List.lookup job
    (collect entries (job,cap)) = some later ∧ d ∈ later := by
  unfold collect
  rw [if_neg (by rw [List.isEmpty_iff]; exact ne_nil_of_mem shown)]
  refine ⟨_,by rw [Dict.lookup_put,if_pos rfl],?_⟩
  rw [Ordered.mem_insertKeys]
  exact .inr shown

theorem collected_kept (rows : List (Nat × CapDict)) (found : List.lookup job entries = some held)
    (inside : d ∈ held) : ∃ later, List.lookup job (rows.foldl collect entries) = some later ∧ d ∈ later := by
  induction rows generalizing entries held with
  | nil => exact ⟨held,found,inside⟩
  | cons row rest ih =>
    obtain ⟨later,found,inside⟩ := collect_keeps row found inside
    exact ih found inside

theorem collected (rows : List (Nat × CapDict)) (stored : (job,cap) ∈ rows) (shown : d ∈ iterDeferrals cap) :
    ∃ later, List.lookup job (rows.foldl collect entries) = some later ∧ d ∈ later := by
  induction rows generalizing entries with
  | nil => cases stored
  | cons row rest ih =>
    cases stored with
    | head =>
      obtain ⟨later,found,inside⟩ := collect_adds shown
      exact collected_kept rest found inside
    | tail _ later => exact ih later

theorem reconcileJob_judges (chosen : job ∈ (reconcileJob index limit links sweep entry).reenqueued) :
    job ∈ sweep.reenqueued ∨ job = entry.1 ∧ entry.2.all (deferralBackfilled index) = true := by
  have requeued : ∀ {sweep : Reconciliation} {row : Job}, row.id = entry.1 → job ∈ (sweep.requeue row).reenqueued →
    job ∈ sweep.reenqueued ∨ job = entry.1 := by
    intro sweep row same inside
    rw [Reconciliation.requeue,mem_append,mem_singleton,same] at inside
    exact inside
  revert chosen
  fun_cases reconcileJob index limit links sweep entry with
  | case5 _ backfilled row found =>
    intro chosen
    exact (requeued (by simpa using find?_some found) chosen).imp_right fun here => ⟨here,not_not.mp backfilled⟩
  | case7 _ backfilled row found =>
    intro chosen
    exact (requeued (by simpa using find?_some found) chosen).imp_right fun here => ⟨here,not_not.mp backfilled⟩
  | _ => exact .inl

theorem pass_judges (queue : ByJob) (pass : Reconciliation)
    (chosen : job ∈ (queue.foldl (reconcileJob index limit links) pass).reenqueued) :
    job ∈ pass.reenqueued ∨ ∃ entry ∈ queue, job = entry.1 ∧ entry.2.all (deferralBackfilled index) = true := by
  induction queue generalizing pass with
  | nil => exact .inl chosen
  | cons first rest ih =>
    rcases ih _ chosen with early | ⟨entry,member,judged⟩
    · rcases reconcileJob_judges early with old | judged
      · exact .inl old
      · exact .inr ⟨first,mem_cons_self,judged⟩
    · exact .inr ⟨entry,mem_cons_of_mem _ member,judged⟩

theorem reenqueued_judged (stored : (job,cap) ∈ storedRows plane) (shown : d ∈ iterDeferrals cap)
    (chosen : job ∈ (reconcileDeferredResolutions plane limit).reenqueued) : deferralBackfilled plane.index d = true :=
    by
  obtain ⟨held,found,inside⟩ : ∃ held, List.lookup job (byJob plane) = some held ∧ d ∈ held := collected _ stored shown
  rcases pass_judges (byJob plane) _ chosen with none | ⟨entry,member,rfl,judged⟩
  · cases none
  · have same : entry.2 = held := by
      rw [(Dict.mem_iff_lookup (byJob_nodup plane) entry.1 entry.2).mp member] at found
      exact Option.some.inj found
    rw [← same] at inside
    exact all_eq_true.mp judged d inside

-- The cursor of an exact key, complete and fit to support an exact answer.
def Warm (index : EventIndex) (address topic0 : String) : Prop :=
  ∃ cursor, index.cursors.find? (fun cursor => cursor.key = ⟨lower address,lower topic0⟩) = some cursor ∧
    cursor.backfillComplete = true ∧ cursorPermitsExactness cursor.enrollmentBasis cursor.firstIndexedBlockBasis = true

-- The answer that no cursor covers the role topics.
def NoIndexCursor (cap : CapabilityExpr) : Prop :=
  ∃ check, cap.check = some check ∧ "no_index_cursor" ∈ check.extra.basis

section Reevaluated
variable {index : EventIndex}

theorem cursorState_warm :
    ((index.cursorState address topic0).1.isNone || !(index.cursorState address topic0).2) = true ↔
    ¬ Warm index address topic0 := by
  unfold EventIndex.cursorState Warm
  cases index.cursors.find? fun cursor => cursor.key = ⟨lower address,lower topic0⟩ with
  | none => simp
  | some cursor =>
    cases permits : cursorPermitsExactness cursor.enrollmentBasis cursor.firstIndexedBlockBasis <;> simp [permits]

theorem minIndexedBlock_none_iff (index : EventIndex) (address : String) (named : topic0s ≠ []) :
    index.minIndexedBlock address topic0s = none ↔ ∃ topic ∈ topic0s, ¬ Warm index address topic := by
  unfold EventIndex.minIndexedBlock
  dsimp only
  split
  · rename_i cold
    simp only [any_map,any_eq_true,Function.comp_apply,cursorState_warm] at cold
    simp [cold]
  · rename_i warm
    simp only [any_map,any_eq_true,Function.comp_apply,cursorState_warm] at warm
    rw [min?_eq_none_iff,filterMap_eq_nil_iff]
    constructor
    · intro empty
      obtain ⟨topic,member⟩ := exists_mem_of_ne_nil _ named
      refine ⟨topic,member,?_⟩
      rw [← cursorState_warm,empty _ (mem_map_of_mem member)]
      rfl
    · intro cold
      exact absurd cold warm

theorem checkOnly_noIndexCursor : NoIndexCursor (checkOnly authority descriptor basis) ↔ "no_index_cursor" ∈ basis := by
  simp [NoIndexCursor,checkOnly,CapabilityExpr.externalCheckOnly]

theorem readRows_error (failed : (readRows index authority block).bind (pure ∘ state) = .error basis) :
    basis = "undecodable_event_data" := by
  unfold readRows at failed
  split at failed
  · cases failed
  · exact (Except.error.inj failed).symm

theorem loadRoleState_error (failed : loadRoleState index authority ctx = .error basis) :
    index.minIndexedBlock authority roleTopics = none ∧ basis = "no_index_cursor" ∨
      index.minIndexedBlock authority roleTopics ≠ none ∧ basis ∈ ["cursor_behind_block","undecodable_event_data"] := by
  revert failed
  fun_cases loadRoleState index authority ctx with
  | case1 absent => exact fun failed => .inl ⟨absent,(Except.error.inj failed).symm⟩
  | case3 _ known | case5 _ known => exact fun failed => .inr ⟨by simp [known],by simp [readRows_error failed]⟩
  | _ =>
    rintro ⟨⟩
    simp [*]

theorem answer_cursor : ¬ NoIndexCursor (answer authority target selector descriptor state) := by
  unfold answer
  split
  · simp [NoIndexCursor,publicCapabilityAnswer,CapabilityExpr.conditionalUniversal]
  · split
    · simp [NoIndexCursor,exactAnswer,CapabilityExpr.finiteSet]
    · rw [checkOnly_noIndexCursor]
      decide

theorem enumerate_noIndexCursor_iff (authority : resolveAuthorityAddress descriptor ctx = some address)
    (target : targetOf ctx = some called) (selector : resolveTargetSelector descriptor ctx = some sighash)
    (repo : ctx.eventLogRepo = some index) :
    NoIndexCursor (enumerate descriptor ctx) ↔ ∃ topic ∈ roleTopics, ¬ Warm index address topic := by
  have named : roleTopics ≠ [] := cons_ne_nil _ _
  rw [← minIndexedBlock_none_iff index address named]
  unfold enumerate
  rw [authority,target,selector,repo]
  dsimp only
  cases load : loadRoleState index address ctx with
  | error basis =>
    rw [checkOnly_noIndexCursor,mem_singleton]
    rcases loadRoleState_error load with ⟨absent,rfl⟩ | ⟨known,other⟩
    · simp [absent]
    · simp only [known,iff_false]
      rintro rfl
      revert other
      decide
  | ok state =>
    constructor
    · intro refused
      exact absurd refused (answer_cursor)
    · intro absent
      simp [loadRoleState,absent] at load

theorem checkOnly_deferrals (left_ : d ∈ checkDeferrals (checkOnly authority descriptor basis).check) :
    ("no_index_cursor" ∈ basis ∨ "cursor_behind_block" ∈ basis) ∧ deferral authority [] = some d := by
  simp only [checkDeferrals,checkOnly,CapabilityExpr.externalCheckOnly] at left_
  split at left_
  · rename_i waits
    rw [Option.mem_toList] at left_
    refine ⟨?_,left_⟩
    simp only [any_eq_true,decide_eq_true_eq] at waits
    obtain ⟨reason,member,rfl | rfl⟩ := waits
    · exact .inl member
    · exact .inr member
  · cases left_

theorem enumerate_defers (left_ : d ∈ checkDeferrals (enumerate descriptor ctx).check) :
    ∃ authority target selector, resolveAuthorityAddress descriptor ctx = some authority ∧ targetOf ctx = some target ∧
      resolveTargetSelector descriptor ctx = some selector ∧ d = (lower authority,[]) := by
  unfold enumerate at left_
  split at left_
  · rename_i authority target selector repo resolved called sighash _
    refine ⟨authority,target,selector,resolved,called,sighash,?_⟩
    have named : deferral (some authority) [] = some d := by
      split at left_
      · exact (checkOnly_deferrals left_).2
      · unfold answer at left_
        split at left_
        · cases left_
        · split at left_
          · cases left_
          · exact (checkOnly_deferrals left_).2
    simp only [deferral] at named
    split at named
    · exact (Option.some.inj named).symm
    · cases named
  · -- The bases of an unresolved read are none of those that wait.
    obtain ⟨waits,_⟩ := checkOnly_deferrals left_
    exfalso
    revert waits
    repeat' split
    all_goals decide

end Reevaluated

-- The deferral does not come back exactly when all three role topics are warm.
theorem reevaluated_with_cursor_iff {plane : Plane} {limit job : Nat} {cap : CapDict} {d : Deferral}
    {descriptor : Descriptor}
    {ctx : EvaluationContext} (left_ : d ∈ checkDeferrals (enumerate descriptor ctx).check)
    (stored : (job,cap) ∈ storedRows plane)
    (shown : d ∈ iterDeferrals cap) (chosen : job ∈ (reconcileDeferredResolutions plane limit).reenqueued)
    (block : Option Nat) (tailScanner : Option TailScanner) : deferralBackfilled plane.index d = true ∧
      (¬ NoIndexCursor (enumerate descriptor {ctx with block,tailScanner,eventLogRepo:=some plane.index}) ↔
        ∀ topic ∈ roleTopics, Warm plane.index d.1 topic) := by
  refine ⟨reenqueued_judged stored shown chosen,?_⟩
  obtain ⟨authority,target,selector,resolved,called,sighash,rfl⟩ := enumerate_defers left_
  have same : ∀ topic, Warm plane.index (lower authority) topic ↔ Warm plane.index authority topic := by
    intro topic
    rw [Warm,Warm,Text.lower_lower]
  have again := @enumerate_noIndexCursor_iff plane.index descriptor
    {ctx with block,tailScanner,eventLogRepo:=some plane.index} _ _ _ resolved called sighash rfl
  simp only [again,same,not_exists,not_and,not_not]

def coldContext : EvaluationContext := {keeperContext with eventLogRepo:=some {}}

def coldCap : CapDict := capabilityToDict (enumerate keeperDescriptor coldContext)

def topicIndex (topic0s : List String) : EventIndex where
  cursors := topic0s.map fun topic =>
    { key:=⟨rolesAuthority,topic⟩,lastIndexedBlock:=20,backfillComplete:=true,enrolledSeedBlock:=0
      firstIndexedBlockBasis:=some .creationBlockMinusOne }

def coldPlane (topic0s : List String) : Plane where
  index := topicIndex topic0s
  jobs := [{id:=1,address:=some "0xvault",status:=.completed,stage:=.done}]
  contracts := [{id:=7,address:="0xvault",jobId:=some 1,functions:=[coldCap]}]

theorem cold_left : (rolesAuthority,[]) ∈ checkDeferrals (enumerate keeperDescriptor coldContext).check := by
  decide +kernel

theorem cold_shown : (rolesAuthority,[]) ∈ iterDeferrals coldCap := by
  decide +kernel

theorem cold_stored (topic0s : List String) : (1,coldCap) ∈ storedRows (coldPlane topic0s) := by
  simp [storedRows,linkedRows,coldPlane,finished]

-- Only the role grants are indexed: the job is re-enqueued, and defers again.
theorem one_topic_reenqueued : deferralBackfilled (coldPlane [roleCapabilityUpdated]).index (rolesAuthority,[]) = true ∧
    (rolesAuthority,[]) ∈ checkDeferrals (enumerate keeperDescriptor coldContext).check ∧
    1 ∈ (reconcileDeferredResolutions (coldPlane [roleCapabilityUpdated]) 200).reenqueued ∧
    NoIndexCursor
    (enumerate keeperDescriptor {coldContext with eventLogRepo:=some (coldPlane [roleCapabilityUpdated]).index}) := by
  refine ⟨by decide +kernel,cold_left,by decide +kernel,?_⟩
  obtain ⟨authority,target,selector,resolved,called,sighash,_⟩ := enumerate_defers cold_left
  apply (@enumerate_noIndexCursor_iff (coldPlane [roleCapabilityUpdated]).index keeperDescriptor
    {coldContext with eventLogRepo:=some (coldPlane [roleCapabilityUpdated]).index} _ _ _ resolved
      called sighash rfl).mpr
  refine ⟨publicCapabilityUpdated,by simp [roleTopics],?_⟩
  rintro ⟨cursor,found,_⟩
  have wanted : cursor.key = ⟨lower authority,lower publicCapabilityUpdated⟩ := by simpa using find?_some found
  have held := mem_of_find?_eq_some found
  simp only [coldPlane,topicIndex,map_cons,map_nil,mem_singleton] at held
  rw [held,roleTopics_lowered publicCapabilityUpdated (by simp [roleTopics])] at wanted
  have topics : roleCapabilityUpdated = publicCapabilityUpdated := congrArg Indexer.Key.topic0 wanted
  revert topics
  decide

theorem all_topics_reevaluated :
    ¬ NoIndexCursor (enumerate keeperDescriptor {coldContext with eventLogRepo:=some (coldPlane roleTopics).index}) ↔
      ∀ topic ∈ roleTopics, Warm (coldPlane roleTopics).index rolesAuthority topic :=
  (@reevaluated_with_cursor_iff (coldPlane roleTopics) 200 1 coldCap (rolesAuthority,[]) keeperDescriptor coldContext
      cold_left (cold_stored roleTopics) cold_shown (by decide +kernel) coldContext.block coldContext.tailScanner).2

end Psat.Roles.Deferred
