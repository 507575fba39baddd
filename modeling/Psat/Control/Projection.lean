import Psat.Control.Graph
import Psat.General.Levels

namespace Psat.Control
open Psat.General Levels Text
open Psat.General.Levels (Meeting Walk note take)

section Meetings

variable (world : World)

def nestedMeetings (fromId : Address) (type : ResolvedType) (details : Details) : List (Meeting Address) :=
  (nestedPrincipalsForDetails type details).map fun nested =>
    ⟨fromId,nested.1,true,(world.classify nested.1).1.analyzable⟩

def controllerMeetings (address : Address) (controller : ControllerValue) : List (Meeting Address) :=
  if isAddress (lower controller.value) then
    ⟨address,lower controller.value,false,controller.resolvedType.analyzable⟩ ::
        nestedMeetings world (lower controller.value) controller.resolvedType controller.details
  else []

def principalMeetings (address : Address) (principal : RolePrincipal) : List (Meeting Address) :=
  if lower principal.address = address then []
  else ⟨address,lower principal.address,false,(principal.resolved world).1.analyzable⟩ ::
    nestedMeetings world (lower principal.address) (principal.resolved world).1 (principal.resolved world).2

def meetings (address : Address) : List (Meeting Address) :=
  match world.artifacts address with
  | none => []
  | some artifacts =>
    artifacts.controllerValues.flatMap (controllerMeetings world address) ++ artifacts.rolePrincipals.flatMap
      (principalMeetings world address)

end Meetings

def pendingOf (entry : Address × Nat) : PendingContract := ⟨entry.1,entry.2⟩

-- The queue of the program is the queue of the abstract walk.
structure Follows (s : State) (walk : Walk Address) : Prop where
  queue : s.queue = walk.queue.map pendingOf
  queued : s.queued = walk.queued
  processed : s.processed = walk.taken.map Prod.fst

variable {maxDepth : Nat}

theorem maybeQueueAddress_follows (follows : Follows s walk) (address : Address) (depth : Nat) :
    Follows (maybeQueueAddress maxDepth s address depth) (enqueue maxDepth walk address depth) := by
  unfold maybeQueueAddress enqueue
  rw [follows.queued]
  split
  · exact follows
  · exact ⟨by rw [follows.queue,List.map_append]; rfl,rfl,follows.processed⟩

theorem showPrincipal_follows (follows : Follows s walk) (edge : Edge) (type : ResolvedType)
    (label : String) (depth : Nat) (far : Bool) :
    Follows
    (showPrincipal maxDepth s edge type label (depth + (Meeting.mk edge.fromId edge.toId far type.analyzable).steps))
      (note maxDepth depth walk ⟨edge.fromId,edge.toId,far,type.analyzable⟩) := by
  unfold showPrincipal note
  split
  · refine maybeQueueAddress_follows ?_ _ _
    exact ⟨follows.queue,follows.queued,follows.processed⟩
  · exact ⟨follows.queue,follows.queued,follows.processed⟩

-- A relation that every principal shown keeps is kept by everything a contract's
-- artifacts name.
section Related

variable {related : State → Walk Address → Prop}
    (one : ∀ s walk, related s walk → ∀ edge type label depth far,
        related
        (showPrincipal maxDepth s edge type label
          (depth + (Meeting.mk edge.fromId edge.toId far type.analyzable).steps))
          (note maxDepth depth walk ⟨edge.fromId,edge.toId,far,type.analyzable⟩))
include one

theorem nested_related (before : related s walk) (fromId : Address) : related
    (addNestedPrincipals world maxDepth s fromId source type details (depth + 1))
    ((nestedMeetings world fromId type details).foldl (note maxDepth depth) walk) := by
  unfold addNestedPrincipals nestedMeetings
  generalize nestedPrincipalsForDetails type details = nested
  induction nested generalizing s walk with
  | nil => exact before
  | cons first rest ih => exact ih (one _ _ before _ _ _ depth true)

theorem controller_related (address : Address) (depth : Nat) (controller : ControllerValue)
    (s : State) (walk : Walk Address)
    (before : related s walk) : related (meetController world maxDepth address depth s controller)
      ((controllerMeetings world address controller).foldl (note maxDepth depth) walk) := by
  unfold meetController controllerMeetings
  dsimp only
  split
  · exact nested_related one (one _ _ before _ _ _ depth false) _
  · exact before

theorem principal_related (address : Address) (depth : Nat) (principal : RolePrincipal) (s : State)
    (walk : Walk Address)
    (before : related s walk) : related (meetRolePrincipal world maxDepth address depth s principal)
      ((principalMeetings world address principal).foldl (note maxDepth depth) walk) := by
  unfold meetRolePrincipal principalMeetings
  dsimp only
  split
  · exact before
  · exact nested_related one (one _ _ before _ _ _ depth false) _

omit one

theorem fold_related {items : List ι}
    (each : ∀ item s walk, related s walk → related (meet s item) ((met item).foldl (note maxDepth depth) walk))
    (before : related s walk) :
    related (items.foldl meet s) ((items.flatMap met).foldl (note maxDepth depth) walk) := by
  induction items generalizing s walk with
  | nil => exact before
  | cons first rest ih =>
    rw [List.flatMap_cons,List.foldl_append]
    exact ih (each first s walk before)

include one

theorem artifacts_related (found : world.artifacts address = some artifacts) (depth : Nat)
    (before : related s walk) : related (artifacts.rolePrincipals.foldl (meetRolePrincipal world maxDepth address depth)
      (artifacts.controllerValues.foldl (meetController world maxDepth address depth) s))
      ((meetings world address).foldl (note maxDepth depth) walk) := by
  unfold meetings
  rw [found]
  rw [List.foldl_append]
  exact fold_related (principal_related one address depth) (fold_related (controller_related one address depth) before)

end Related

-- Members never enter the queue.
structure SameQueue (before after : State) : Prop where
  queue : after.queue = before.queue
  queued : after.queued = before.queued
  processed : after.processed = before.processed

theorem publishMappingPrincipals_queue (s : State) (address : Address) (principals : List EnumeratedPrincipal)
    (complete : Bool) (depth : Nat) :
    SameQueue s (publishMappingPrincipals s address principals complete depth) := by
  have dropped : SameQueue s (if complete then dropMappingMemberEdges s address else s) := by
    unfold dropMappingMemberEdges
    split
    · dsimp only
      split <;> exact ⟨rfl,rfl,rfl⟩
    · exact ⟨rfl,rfl,rfl⟩
  unfold publishMappingPrincipals
  generalize (if complete then dropMappingMemberEdges s address else s) = middle at dropped
  induction principals generalizing middle with
  | nil => exact dropped
  | cons first rest ih =>
    refine ih _ ?_
    unfold publishMember
    dsimp only
    split
    · exact dropped
    · exact ⟨dropped.queue,dropped.queued,dropped.processed⟩

theorem replayMembers_queue : SameQueue s (replayMembers s address depth trees) := by
  cases trees with
  | none => exact ⟨rfl,rfl,rfl⟩
  | some trees =>
    unfold replayMembers
    dsimp only
    cases trees.replay with
    | none => exact ⟨rfl,rfl,rfl⟩
    | some replay =>
      have same (before : State) := publishMappingPrincipals_queue before address
        (replay.principals.filter replay.holdsCheckedKey) replay.complete depth
      exact ⟨(same _).queue,(same _).queued,(same _).processed⟩

theorem Follows.same (follows : Follows before walk) (same : SameQueue before after) :
    Follows after walk :=
  ⟨same.queue.trans follows.queue,same.queued.trans follows.queued,same.processed.trans follows.processed⟩

theorem visit_follows (follows : Follows s walk) (entry : Address × Nat) :
    Follows (visit world maxDepth s (pendingOf entry)) (take (meetings world) maxDepth walk entry) := by
  have processed : s.processed ++ [entry.1] = (walk.taken ++ [entry]).map Prod.fst := by
    rw [follows.processed,List.map_append]
    rfl
  unfold visit take pendingOf
  cases found : world.artifacts entry.1 with
  | none =>
    have none : meetings world entry.1 = [] := by
      unfold meetings
      rw [found]
    rw [none]
    exact ⟨follows.queue,follows.queued,processed⟩
  | some artifacts =>
    refine artifacts_related (fun _ _ follows => showPrincipal_follows follows) found _ ?_
    refine Follows.same ?_ (replayMembers_queue)
    exact ⟨follows.queue,follows.queued,processed⟩

theorem targetDepth_least (first : Address × Nat) (rest : List (Address × Nat)) :
    targetDepth (pendingOf first) (rest.map pendingOf) = least first.2 rest := by
  unfold targetDepth least
  rw [List.foldl_map]
  rfl

section
variable (follows : Follows s walk)
include follows

theorem visits_follow (entries : List (Address × Nat)) :
    Follows ((entries.map pendingOf).foldl (visit world maxDepth) s)
    (entries.foldl (take (meetings world) maxDepth) walk) := by
  induction entries generalizing s walk with
  | nil => exact follows
  | cons first rest ih => exact ih (visit_follows follows first)

theorem pending_follows (target : Nat) :
    (s.queue.filter fun entry => decide (entry.depth = target) && decide (entry.address ∉ s.processed) && decide
      (entry.depth ≤ maxDepth)) =
        (pending maxDepth walk target).map pendingOf := by
  rw [follows.queue,follows.processed,List.filter_map]
  congr 1

theorem rest_follows (target : Nat) :
    (s.queue.filter fun entry => decide (entry.depth ≠ target)) = (walk.queue.filter (·.2 ≠ target)).map pendingOf := by
  rw [follows.queue,List.filter_map]
  rfl

theorem level_over : level world maxDepth s = none ↔ walk.queue = [] := by
  unfold level
  rw [follows.queue]
  cases walk.queue with
  | nil => exact ⟨fun _ => rfl,fun _ => rfl⟩
  | cons first rest =>
    constructor
    · intro ended
      cases ended
    · intro none
      cases none

theorem level_visits (step : level world maxDepth s = some later) :
    ∃ entries queue : List (Address × Nat), later = (entries.map pendingOf).foldl (visit world maxDepth)
    {s with queue:=queue.map pendingOf} ∧
      round (meetings world) maxDepth walk = some
      (entries.foldl (take (meetings world) maxDepth) {walk with queue:=queue}) ∧
      ∀ entry ∈ entries, entry ∈ walk.queue := by
  unfold level at step
  have shape := follows.queue
  cases queue : walk.queue with
  | nil =>
    rw [queue] at shape
    rw [shape] at step
    cases step
  | cons first rest =>
    rw [queue] at shape
    have pendings := @pending_follows s walk maxDepth follows (least first.2 rest)
    have rests := rest_follows follows (least first.2 rest)
    rw [shape] at step pendings rests
    rw [List.map_cons] at step pendings rests
    dsimp only at step
    rw [targetDepth_least,pendings,rests] at step
    cases step
    refine ⟨_,_,rfl,by unfold Levels.round drained; rw [queue],?_⟩
    exact fun entry inside => queue ▸ List.mem_of_mem_filter inside

theorem level_follows (step : level world maxDepth s = some later) :
    ∃ next, round (meetings world) maxDepth walk = some next ∧ Follows later next := by
  obtain ⟨entries,queue,rfl,round,_⟩ := level_visits follows step
  refine ⟨_,round,visits_follow ?_ entries⟩
  exact ⟨rfl,follows.queued,follows.processed⟩

end

theorem round_over : round (meetings world) maxDepth walk = none ↔ walk.queue = [] := by
  unfold Levels.round
  cases walk.queue with
  | nil => exact ⟨fun _ => rfl,fun _ => rfl⟩
  | cons first rest =>
    constructor
    · intro ended
      cases ended
    · intro none
      cases none

def Met (world : World) (address met : Address) (type : ResolvedType) (details : Details) : Prop :=
  ∃ artifacts, world.artifacts address = some artifacts ∧
    ((∃ controller ∈ artifacts.controllerValues, isAddress (lower controller.value) = true ∧
      met = lower controller.value ∧
          type = controller.resolvedType ∧ details = controller.details) ∨
        ∃ principal ∈ artifacts.rolePrincipals, lower principal.address ≠ address ∧ met = lower principal.address ∧
          type = (principal.resolved world).1 ∧ details = (principal.resolved world).2)

theorem mem_meetings : meeting ∈ meetings world address ↔ ∃ met type details, Met world address met type details ∧
    (meeting = ⟨address,met,false,type.analyzable⟩ ∨ meeting ∈ nestedMeetings world met type details) := by
  unfold meetings Met
  cases world.artifacts address with
  | none => simp
  | some artifacts =>
    rw [List.mem_append,List.mem_flatMap,List.mem_flatMap]
    constructor
    · intro member
      rcases member with ⟨controller,inside,member⟩ | ⟨principal,inside,member⟩
      · unfold controllerMeetings at member
        split at member
        · rename_i isAddress
          exact ⟨_,_,_,⟨artifacts,rfl,.inl ⟨controller,inside,isAddress,rfl,rfl,rfl⟩⟩,List.mem_cons.mp member⟩
        · cases member
      · unfold principalMeetings at member
        split at member
        · cases member
        · rename_i other
          exact ⟨_,_,_,⟨artifacts,rfl,.inr ⟨principal,inside,other,rfl,rfl,rfl⟩⟩,List.mem_cons.mp member⟩
    · intro found
      obtain ⟨met,type,details,⟨same,is,how⟩,shape⟩ := found
      cases is
      rcases how with ⟨controller,inside,isAddress,rfl,rfl,rfl⟩ | ⟨principal,inside,other,rfl,rfl,rfl⟩
      · refine .inl ⟨controller,inside,?_⟩
        unfold controllerMeetings
        rw [if_pos isAddress]
        exact List.mem_cons.mpr shape
      · refine .inr ⟨principal,inside,?_⟩
        unfold principalMeetings
        rw [if_neg other]
        exact List.mem_cons.mpr shape

end Psat.Control
