import Psat.Roles.Store

namespace Psat.Roles.Store
open Psat.General List Text
open Psat.Capability
open Psat.Events
open Psat.Indexer (IndexedEventLog)

inductive JobStatus
  | queued
  | processing
  | completed
  | failed
  | failedTerminal
deriving DecidableEq

inductive JobStage
  | discovery
  | dappCrawl
  | defillamaScan
  | selection
  | static
  | resolution
  | policy
  | effects
  | coverage
  | done
deriving DecidableEq

-- A job with its functions' capabilities; `effectsResume` only resumes effects work.
structure Job where
  id : Nat
  address : Option String
  status : JobStatus
  stage : JobStage
  effectsResume : Bool := false
  functions : List CapDict := []

def stepFrontier (step : TraceStep) : Option (String × Nat) :=
  if step.step = traceStepName then
    match step.authority,step.foldFrontier with
    | some authority,some frontier => if isAddress authority then some (lower authority,frontier) else none
    | _,_ => none
  else none

mutual

def iterRoleStoreFrontiers : CapDict → List (String × Nat)
  | ⟨fields,signer,children⟩ =>
    fields.trace.filterMap stepFrontier ++ childFrontiers children ++ signerFrontiers signer

def childFrontiers : List CapDict → List (String × Nat)
  | [] => []
  | child :: rest => iterRoleStoreFrontiers child ++ childFrontiers rest

def signerFrontiers : Option CapDict → List (String × Nat)
  | none => []
  | some signer => iterRoleStoreFrontiers signer

end

-- The lowest frontier of each authority is the conservative one.
def lowerFrontier (lowest : List (String × Nat)) (found : String × Nat) : List (String × Nat) :=
  match List.lookup found.1 lowest with
  | none => Dict.put found.1 found.2 lowest
  | some prior => Dict.put found.1 (min prior found.2) lowest

def Job.frontiers (job : Job) : List (String × Nat) :=
  (job.functions.flatMap iterRoleStoreFrontiers).foldl lowerFrontier []

def authorityBackfilled (index : EventIndex) (authority : String) : Bool :=
  index.cursors.any fun cursor => decide (lower cursor.key.address = lower authority) && cursor.backfillComplete &&
    cursorPermitsExactness cursor.enrollmentBasis cursor.firstIndexedBlockBasis

def roleRowPastFrontier (index : EventIndex) (authority : String) (frontier : Nat) : Bool :=
  index.logs.any fun log => decide (lower log.key.address = lower authority) &&
    decide (log.key.topic0 ∈ allTopic0s.map lower) && decide (frontier < log.entry.blockNumber)

def hasDrift (index : EventIndex) (authority : String) (frontier : Nat) : Bool :=
  authorityBackfilled index authority && roleRowPastFrontier index authority frontier

def addressHasActiveJob (jobs : List Job) (job : Job) : Bool :=
  match job.address with
  | none => false
  | some address =>
    address ≠ "" && jobs.any fun other => decide (other.address.map lower = some (lower address)) &&
      decide (other.id ≠ job.id) && !other.effectsResume && decide (other.status = .queued ∨ other.status = .processing)

def requeuePolicy (job : Job) : Job := {job with stage:=.policy,status:=.queued}

-- Whether one examined job is re-enqueued, given the jobs as the pass left them.
def drifted (index : EventIndex) (jobs : List Job) (job : Job) : Bool :=
  (job.frontiers.any fun (authority,frontier) => hasDrift index authority frontier) && !addressHasActiveJob jobs job

structure Pass where
  jobs : List Job
  examined : List Nat := []
  selected : List Nat := []

def examine (index : EventIndex) (limit : Nat) (pass : Pass) (job : Job) : Pass :=
  if limit ≤ pass.selected.length then pass
  else if drifted index pass.jobs job then
    { jobs:=pass.jobs.map fun other => if other.id = job.id then requeuePolicy other else other
      examined:=pass.examined ++ [job.id]
      selected:=pass.selected ++ [job.id] }
  else {pass with examined:=pass.examined ++ [job.id]}

def reconcileRoleSetDrift (index : EventIndex) (limit : Nat) (jobs : List Job) : Pass :=
  (jobs.filter fun job => job.status = .completed ∧ job.stage = .done).foldl (examine index limit) {jobs}

theorem active_requeued (id : Nat) (active : addressHasActiveJob jobs job = true) :
    addressHasActiveJob (jobs.map fun other => if other.id = id then requeuePolicy other else other) job = true := by
  unfold addressHasActiveJob at active ⊢
  cases address : job.address with
  | none => simp [address] at active
  | some text =>
    simp only [address,Bool.and_eq_true,any_eq_true,decide_eq_true_eq,Bool.not_eq_true'] at active ⊢
    obtain ⟨named,other,member,⟨⟨same,differs⟩,whole⟩,busy⟩ := active
    refine ⟨named,_,mem_map_of_mem member,?_⟩
    split
    · exact ⟨⟨⟨same,differs⟩,whole⟩,.inl rfl⟩
    · exact ⟨⟨⟨same,differs⟩,whole⟩,busy⟩

theorem active_examine (first : Job) (active : addressHasActiveJob sweep.jobs job = true) :
    addressHasActiveJob (examine index limit sweep first).jobs job = true := by
  unfold examine
  split
  · exact active
  · split
    · exact active_requeued _ active
    · exact active

theorem active_pass (queue : List Job) (pass : Pass) (job : Job) (active : addressHasActiveJob pass.jobs job = true) :
    addressHasActiveJob (queue.foldl (examine index limit) pass).jobs job = true := by
  induction queue generalizing pass with
  | nil => exact active
  | cons first rest ih => exact ih _ (active_examine first active)

theorem selected_examine (pass : Pass) (job : Job) : pass.selected ⊆ (examine index limit pass job).selected := by
  unfold examine
  split
  · exact List.Subset.refl _
  · split
    · exact subset_append_left _ _
    · exact List.Subset.refl _

theorem selected_pass (queue : List Job) (pass : Pass) :
    pass.selected ⊆ (queue.foldl (examine index limit) pass).selected := by
  induction queue generalizing pass with
  | nil => exact List.Subset.refl _
  | cons first rest ih => exact List.Subset.trans (selected_examine pass first) (ih _)

theorem examined_examine (id : Nat) (inside : id ∈ (examine index limit sweep job).examined) :
    id ∈ sweep.examined ∨ id = job.id := by
  unfold examine at inside
  split at inside
  · exact .inl inside
  · split at inside
    · simpa using inside
    · simpa using inside

theorem examined_pass (queue : List Job) (pass : Pass) (id : Nat)
    (inside : id ∈ (queue.foldl (examine index limit) pass).examined) : id ∈ pass.examined ∨ id ∈ queue.map Job.id := by
  induction queue generalizing pass with
  | nil => exact .inl inside
  | cons first rest ih =>
    rcases ih _ inside with earlier | later
    · rcases examined_examine id earlier with old | here
      · exact .inl old
      · exact .inr (by simp [here])
    · exact .inr (mem_cons_of_mem _ later)

theorem examined_no_drift (queue : List Job) (unique : (queue.map Job.id).Nodup) (pass : Pass) (member : job ∈ queue)
    (fresh : job.id ∉ pass.examined) (examined : job.id ∈ (queue.foldl (examine index limit) pass).examined)
    (left_ : job.id ∉ (queue.foldl (examine index limit) pass).selected)
    (idle : addressHasActiveJob (queue.foldl (examine index limit) pass).jobs job = false) :
    ∀ authority frontier, (authority,frontier) ∈ job.frontiers → hasDrift index authority frontier = false := by
  induction queue generalizing pass with
  | nil => cases member
  | cons first rest ih =>
    rw [map_cons,nodup_cons] at unique
    rw [foldl_cons] at examined left_ idle
    cases member with
    | tail _ later =>
      apply ih unique.2 _ later _ examined left_ idle
      intro early
      rcases examined_examine job.id early with old | here
      · exact fresh old
      · exact unique.1 (here ▸ mem_map_of_mem later)
    | head =>
      have here : job.id ∈ (examine index limit pass job).examined := by
        rcases examined_pass rest _ job.id examined with now | later
        · exact now
        · exact absurd later unique.1
      by_cases full : limit ≤ pass.selected.length
      · rw [examine,if_pos full] at here
        exact absurd here fresh
      · cases drift : drifted index pass.jobs job with
        | true =>
          have chosen : job.id ∈ (examine index limit pass job).selected := by
            simp [examine,full,drift]
          exact absurd (selected_pass rest _ chosen) left_
        | false =>
          have quiet : addressHasActiveJob pass.jobs job = false := by
            rw [← Bool.not_eq_true]
            intro active
            have now : addressHasActiveJob (examine index limit pass job).jobs job = true :=
              active_examine job active
            rw [active_pass rest _ job now] at idle
            cases idle
          simp only [drifted,quiet,Bool.not_false,Bool.and_true,any_eq_false] at drift
          intro authority frontier inside
          simpa using drift (authority,frontier) inside

theorem lookup_lowerFrontier (lowest : List (String × Nat))
    (known : List.lookup authority lowest = some front ∨ (authority,front) = found) :
    ∃ least, least ≤ front ∧ List.lookup authority (lowerFrontier lowest found) = some least := by
  obtain ⟨name,height⟩ := found
  unfold lowerFrontier
  by_cases same : authority = name
  · subst same
    cases prior : List.lookup authority lowest with
    | none =>
      rcases known with held | here
      · rw [prior] at held
        cases held
      · cases here
        exact ⟨front,Nat.le_refl _,by simp [Dict.lookup_put]⟩
    | some old =>
      refine ⟨min old height,?_,by simp [Dict.lookup_put]⟩
      rcases known with held | here
      · rw [prior] at held
        cases held
        exact Nat.min_le_left _ _
      · cases here
        exact Nat.min_le_right _ _
  · have held : List.lookup authority lowest = some front := by
      rcases known with held | here
      · exact held
      · exact absurd (congrArg Prod.fst here) same
    refine ⟨front,Nat.le_refl _,?_⟩
    cases List.lookup name lowest <;> simpa [Dict.lookup_put,same] using held

theorem lookup_lowest (found lowest : List (String × Nat))
    (known : List.lookup authority lowest = some front ∨ (authority,front) ∈ found) :
    ∃ least, least ≤ front ∧ List.lookup authority (found.foldl lowerFrontier lowest) = some least := by
  induction found generalizing lowest front with
  | nil =>
    rcases known with held | absent
    · exact ⟨front,Nat.le_refl _,held⟩
    · cases absent
  | cons first rest ih =>
    have early : (List.lookup authority lowest = some front ∨ (authority,front) = first) ∨ (authority,front) ∈ rest :=
      by
      rw [mem_cons] at known
      tauto
    rcases early with now | later
    · obtain ⟨least,below,held⟩ := lookup_lowerFrontier lowest now
      obtain ⟨final,under,held⟩ := ih _ (.inl held)
      exact ⟨final,Nat.le_trans under below,held⟩
    · exact ih _ (.inr later)

theorem mem_frontiers {job : Job} (found : (authority,front) ∈ job.functions.flatMap iterRoleStoreFrontiers) :
    ∃ least, least ≤ front ∧ (authority,least) ∈ job.frontiers := by
  obtain ⟨least,below,held⟩ := lookup_lowest _ [] (.inr found)
  obtain ⟨before,after,split,_⟩ := lookup_eq_some_iff.mp held
  refine ⟨least,below,?_⟩
  rw [Job.frontiers,split]
  simp

end Psat.Roles.Store
