import Psat.Events.Exact
import Psat.Indexer.Run
import Psat.Roles.Reconciler

namespace Psat.Roles.Store
open Psat.General List Text
open Psat.Capability
open Psat.Events
open Psat.Indexer (Entry FetchedEventLog IndexedEventLog IndexedEventCursor Key Chain)
open Reachable (next)
open Indexer
    (Acts Event Faithful Phase Store Visit World bucketLogs bulkInsertLogs lockMembers lowest
      planGroup singleAddress slice)

-- One chain's logs, each named by its transaction and its index there.
structure ChainHistory extends History where
  identified : ∀ a ∈ logs, ∀ b ∈ logs, a.entry.txHash = b.entry.txHash → a.entry.logIndex = b.entry.logIndex → a = b

def ChainHistory.chain (history : ChainHistory) : Chain where
  holds address entry := ∃ topic, ⟨⟨address,topic⟩,entry⟩ ∈ history.logs
  identified := by
    rintro address address' entry entry' ⟨topic,first⟩ ⟨topic',second⟩ hash index
    have same := history.identified _ first _ second hash index
    cases same
    exact ⟨rfl,rfl⟩

theorem ChainHistory.logs_iff (history : ChainHistory) : history.chain.logs key entry ↔ ⟨key,entry⟩ ∈ history.logs := by
  constructor
  · rintro ⟨⟨topic,member⟩,named⟩
    have same := history.named _ member
    rw [named] at same
    cases same
    exact member
  · intro member
    exact ⟨⟨key.topic0,member⟩,history.named _ member⟩

abbrev Bases := Key → Option EnrollmentBasis × Option FirstIndexedBasis

-- A witnessed floor is right: the address has no log of the topic up to it.
def FloorsRight (history : ChainHistory) (bases : Bases) (store : Store) : Prop :=
  ∀ cursor ∈ store.cursors, (bases cursor.key).2 = some .creationBlockMinusOne →
    ∀ entry, ⟨cursor.key,entry⟩ ∈ history.logs → cursor.enrolledSeedBlock < entry.blockNumber

structure Fold where
  authority : String
  topic0s : List String
  gathered : Gathered

structure Resolved where
  cap : CapabilityExpr
  fold : Fold

-- A job, the sets its pass has enumerated, and the folds it last published.
structure Tracked where
  job : Job
  pending : List Resolved := []
  folds : List Fold := []

structure Plane where
  world : World := {}
  bases : Bases := fun _ => (none,none)
  tracked : List Tracked := []

def Plane.index (p : Plane) : EventIndex where
  cursors := p.world.store.cursors.map fun cursor =>
    {cursor with enrollmentBasis:=(p.bases cursor.key).1,firstIndexedBlockBasis:=(p.bases cursor.key).2}
  logs := p.world.store.logs

def Plane.jobs (p : Plane) : List Job := p.tracked.map Tracked.job

def Carried (before after : List Tracked) : Prop :=
  (after.map fun t => t.job.id).Nodup ∧ ∀ t ∈ after, (t.job.functions = [] ∧ t.pending = [] ∧ t.folds = []) ∨
      ∃ old ∈ before, old.job.id = t.job.id ∧ old.job.functions = t.job.functions ∧ old.pending = t.pending ∧
        old.folds = t.folds

-- Indexing, witnesses, enumerations, publications, the queue and drift passes, in any order.
inductive Step (history : ChainHistory) : Plane → Plane → Prop
  | indexing {p world} : Indexer.Step history.chain p.world world → FloorsRight history p.bases world.store →
    Step history p {p with world}
  | witness {p} (bases : Bases) : FloorsRight history bases p.world.store → Step history p {p with bases}
  | enumerate {p before t after descriptor ctx authority calleeSelector standard gathered cap} :
    p.tracked = before ++ t :: after → ctx.eventLogRepo = some p.index →
    resolveAuthority descriptor ctx.toEvaluationContext = some authority →
    ctx.calleeSelector descriptor = some calleeSelector →
    TailSound history.toHistory ctx.scanEventTail → standard ∈ standards →
    resolve p.index authority calleeSelector ctx = .ok (standard,gathered,cap) →
    Step history p {p with tracked:=before ++
      {t with pending:=t.pending ++ [⟨enumerate descriptor ctx,⟨authority,standard.topic0s,gathered⟩⟩]} :: after}
  | publish {p before t after} (functions : List CapDict) : p.tracked = before ++ t :: after →
    (∀ resolved ∈ t.pending, ∀ frontier ∈ iterRoleStoreFrontiers (capabilityToDict resolved.cap),
        frontier ∈ functions.flatMap iterRoleStoreFrontiers) →
    Step history p {p with tracked:=before ++
      { job:={t.job with functions,status:=.completed,stage:=.done}
        folds:=t.pending.map Resolved.fold } :: after}
  | queue {p} (tracked : List Tracked) : Carried p.tracked tracked → Step history p {p with tracked}
  | reconcile {p} (limit : Nat) : Step history p
    {p with tracked:=p.tracked.map fun t =>
        if t.job.id ∈ (reconcileRoleSetDrift p.index limit p.jobs).selected then {t with job:=requeuePolicy t.job}
          else t}

def Reached (history : ChainHistory) : Plane → Prop := Reachable (fun p => p = {}) (Step history)

-- The fold read all of the chain's logs of its topics up to the pinned block.
structure FoldOk (history : ChainHistory) (fold : Fold) : Prop where
  rows : fold.gathered.rows =
    (history.toHistory.through fold.authority fold.topic0s fun _ => fold.gathered.pinnedBlock).map storedRow
  lowered : lower fold.authority = fold.authority
  standard : ∃ standard ∈ standards, fold.topic0s = standard.topic0s

def TrackedOk (history : ChainHistory) (t : Tracked) : Prop :=
  (∀ resolved ∈ t.pending, FoldOk history resolved.fold ∧
      (resolved.fold.authority,resolved.fold.gathered.foldFrontier) ∈ iterRoleStoreFrontiers
        (capabilityToDict resolved.cap)) ∧
  ∀ fold ∈ t.folds, FoldOk history fold ∧
    (fold.authority,fold.gathered.foldFrontier) ∈ t.job.functions.flatMap iterRoleStoreFrontiers

structure PlaneOk (history : ChainHistory) (p : Plane) : Prop where
  world : Indexer.WorldOk history.chain p.world
  floors : FloorsRight history p.bases p.world.store
  ids : (p.tracked.map fun t => t.job.id).Nodup
  tracked : ∀ t ∈ p.tracked, TrackedOk history t

section Steps
variable {history : ChainHistory}

theorem lowest_le_seed (cursor : IndexedEventCursor) (events : List Event) :
    lowest cursor events ≤ cursor.enrolledSeedBlock := (Indexer.foldl_min_le _ _).1

theorem PlaneOk.holds (ok : PlaneOk history p) : p.index.Holds history.toHistory := by
  have stored := ok.world.store
  refine ⟨stored.once,?_⟩
  intro cursor present permits entry
  obtain ⟨raw,member,rfl⟩ := mem_map.mp present
  simp only [cursorPermitsExactness,Bool.and_eq_true,decide_eq_true_eq] at permits
  have rows := stored.exact raw member entry
  rw [history.logs_iff] at rows
  refine rows.trans ⟨fun both => ⟨both.1,both.2.2⟩,fun both => ⟨both.1,?_,both.2⟩⟩
  have floor := ok.floors raw member permits.2 entry both.1
  exact Nat.lt_of_le_of_lt (lowest_le_seed raw p.world.history) floor

theorem standards_lowered (known : standard ∈ standards) : Lowered standard.topic0s := by
  intro topic member
  simp only [standards,mem_cons,not_mem_nil,or_false] at known
  rcases known with rfl | rfl
  · simp only [RoleStoreStandard.topic0s,soladyEnumerableRoles,map_cons,map_nil,mem_singleton] at member
    subst member
    decide +kernel
  · simp only [RoleStoreStandard.topic0s,ozAccessControlEnumerable,map_cons,map_nil,mem_cons,
      not_mem_nil,or_false] at member
    rcases member with rfl | rfl <;> decide +kernel

theorem standards_topics (known : standard ∈ standards) (member : topic ∈ standard.topic0s) : topic ∈ allTopic0s := by
  rw [allTopic0s,Sorted.mem_sortedSet]
  exact mem_flatMap.mpr ⟨standard,known,member⟩

theorem readRows_ok (lowered : Lowered topic0s) (read : readRows repo authority topic0s block = .ok rows) :
    rows = (repo.selectRows authority topic0s (some block)).map storedRow := by
  unfold readRows at read
  split at read
  · rename_i stored found
    cases read
    rw [iterEventRows_ok lowered found]
  · cases read

theorem gatherRows_reads (holds : repo.Holds history.toHistory)
    (sound : TailSound history.toHistory ctx.scanEventTail) (lowered : Lowered topic0s)
    (gathers : gatherRows repo authority topic0s ctx = .ok gathered) :
    gathered.rows = (history.toHistory.through authority topic0s fun _ => gathered.pinnedBlock).map storedRow := by
  revert gathers
  fun_cases gatherRows repo authority topic0s ctx with
  | case4 least found _ pinned pins covered =>
    intro gathers
    obtain ⟨cut,cursors,_⟩ := warmBlock_states (minIndexedBlock_warm found)
    have below : pinned ≤ least := of_decide_eq_true covered
    obtain ⟨rows,read,made⟩ := ok_bind.mp gathers
    cases made
    rw [readRows_ok lowered read,selectRows_behind holds lowered cursors below]
  | case6 least found _ pinned pins uncovered _ scan complete =>
    intro gathers
    obtain ⟨cut,cursors,_⟩ := warmBlock_states (minIndexedBlock_warm found)
    rw [Bool.not_eq_true] at uncovered
    obtain ⟨durable,read,made⟩ := ok_bind.mp gathers
    cases made
    rw [readRows_ok lowered read]
    exact rows_with_tail holds lowered cursors sound complete (Nat.le_of_lt (covers_false uncovered))
  | _ => rintro ⟨⟩

theorem confirm_cap (confirmed : confirm authority calleeSelector standard ctx gathered = .ok cap) :
    ∃ members, cap = exactMembers authority members gathered := by
  unfold confirm at confirmed
  dsimp only at confirmed
  repeat' split at confirmed
  all_goals cases confirmed
  exact ⟨_,rfl⟩

theorem nonzeroAddress_some (found : nonzeroAddress value = some address) :
    isAddress address = true ∧ lower address = address := by
  unfold nonzeroAddress at found
  split at found
  · split at found
    · rename_i raw valid
      cases found
      simp only [isNonzeroAddress,Bool.and_eq_true] at valid
      exact ⟨isAddress_lower valid.1,lower_lower raw⟩
    · cases found
  · cases found

theorem resolveAuthority_some (found : resolveAuthority descriptor ctx = some authority) :
    isAddress authority = true ∧ lower authority = authority := by
  unfold resolveAuthority resolveAuthorityAddress at found
  split at found
  · rename_i resolved
    cases found
    split at resolved
    · rename_i direct
      cases resolved
      exact nonzeroAddress_some direct
    · split at resolved
      · exact nonzeroAddress_some resolved
      · cases resolved
  · split at found
    · exact nonzeroAddress_some found
    · cases found

theorem exactMembers_frontiers (valid : isAddress authority = true) (lowered : lower authority = authority)
    (members : List String) (gathered : Gathered) :
    iterRoleStoreFrontiers (capabilityToDict (exactMembers authority members gathered)) =
    [(authority,gathered.foldFrontier)] := by
  have made : stepFrontier (storeStep authority gathered) = some (authority,gathered.foldFrontier) := by
    simp [stepFrontier,storeStep,valid,lowered]
  have walked : iterRoleStoreFrontiers (capabilityToDict (exactMembers authority members gathered)) =
    [storeStep authority gathered].filterMap stepFrontier ++ [] ++ [] := rfl
  rw [walked]
  simp [made]

theorem enumerate_exact (reading : ctx.eventLogRepo = some repo)
    (resolved : resolveAuthority descriptor ctx.toEvaluationContext = some authority)
    (called : ctx.calleeSelector descriptor = some calleeSelector)
    (ran : resolve repo authority calleeSelector ctx = .ok (standard,gathered,cap)) :
    enumerate descriptor ctx = cap := by
  unfold enumerate
  rw [resolved,called,reading]
  dsimp only
  rw [ran]

theorem enumerate_ok (ok : PlaneOk history p) (reading : ctx.eventLogRepo = some p.index)
    (resolved : resolveAuthority descriptor ctx.toEvaluationContext = some authority)
    (called : ctx.calleeSelector descriptor = some calleeSelector)
    (sound : TailSound history.toHistory ctx.scanEventTail) (known : standard ∈ standards)
    (ran : resolve p.index authority calleeSelector ctx = .ok (standard,gathered,cap)) :
    FoldOk history ⟨authority,standard.topic0s,gathered⟩ ∧
      (authority,gathered.foldFrontier) ∈ iterRoleStoreFrontiers (capabilityToDict (enumerate descriptor ctx)) := by
  obtain ⟨valid,lowered⟩ := resolveAuthority_some resolved
  rw [enumerate_exact reading resolved called ran]
  unfold resolve at ran
  split at ran
  · cases ran
  obtain ⟨rows,gathers,ran⟩ := ok_bind.mp ran
  obtain ⟨set_,confirmed,ran⟩ := ok_bind.mp ran
  cases ran
  obtain ⟨members,rfl⟩ := confirm_cap confirmed
  refine ⟨⟨?_,lowered,standard,known,rfl⟩,by simp [exactMembers_frontiers valid lowered]⟩
  exact gatherRows_reads ok.holds sound (standards_lowered known) gathers

theorem replace_tracked {before after : List Tracked} (new : TrackedOk history t')
    (ids : ((before ++ t :: after).map fun t => t.job.id).Nodup)
    (all : ∀ other ∈ before ++ t :: after, TrackedOk history other)
    (same : t'.job.id = t.job.id) :
    ((before ++ t' :: after).map fun t => t.job.id).Nodup ∧ ∀ other ∈ before ++ t' :: after, TrackedOk history other :=
    by
  refine ⟨by simpa [same] using ids,?_⟩
  rw [forall_mem_append,forall_mem_cons] at all ⊢
  exact ⟨all.1,new,all.2.2⟩

theorem step_ok (ok : PlaneOk history p) (step : Step history p p') : PlaneOk history p' := by
  cases step with
  | indexing moved floors => exact ⟨Indexer.step_ok ok.world moved,floors,ok.ids,ok.tracked⟩
  | witness bases floors => exact ⟨ok.world,floors,ok.ids,ok.tracked⟩
  | @enumerate before t after descriptor ctx authority calleeSelector standard gathered cap
    places reading resolved called sound known ran =>
    have ids := ok.ids
    have all := ok.tracked
    rw [places] at ids all
    have fresh := enumerate_ok ok reading resolved called sound known ran
    have grown : TrackedOk history
      {t with pending:=t.pending ++ [⟨Store.enumerate descriptor ctx,⟨authority,standard.topic0s,gathered⟩⟩]} := by
      refine ⟨?_,(all t (by simp)).2⟩
      rw [forall_mem_append,forall_mem_singleton]
      exact ⟨(all t (by simp)).1,fresh⟩
    obtain ⟨ids',all'⟩ := replace_tracked grown ids all rfl
    exact ⟨ok.world,ok.floors,ids',all'⟩
  | @publish before t after functions places carried =>
    have ids := ok.ids
    have all := ok.tracked
    rw [places] at ids all
    have published : TrackedOk history
      {job:={t.job with functions,status:=.completed,stage:=.done},folds:=t.pending.map Resolved.fold} := by
      refine ⟨by simp,?_⟩
      intro fold member
      obtain ⟨resolved,inside,rfl⟩ := mem_map.mp member
      obtain ⟨right,shown⟩ := (all t (by simp)).1 resolved inside
      exact ⟨right,carried resolved inside _ shown⟩
    obtain ⟨ids',all'⟩ := replace_tracked published ids all rfl
    exact ⟨ok.world,ok.floors,ids',all'⟩
  | queue tracked carried =>
    refine ⟨ok.world,ok.floors,carried.1,?_⟩
    intro t member
    rcases carried.2 t member with ⟨_,noPending,noFolds⟩ | ⟨old,present,_,functions,pending,folds⟩
    · exact ⟨by simp [noPending],by simp [noFolds]⟩
    · have kept := ok.tracked old present
      unfold TrackedOk at kept ⊢
      rwa [functions,pending,folds] at kept
  | reconcile limit =>
    refine ⟨ok.world,ok.floors,?_,?_⟩
    · have same : (p.tracked.map fun t => if t.job.id ∈ (reconcileRoleSetDrift p.index limit p.jobs).selected
        then {t with job:=requeuePolicy t.job} else t).map (fun t => t.job.id) = p.tracked.map fun t => t.job.id := by
        rw [map_map]
        apply map_congr_left
        intro t _
        simp only [Function.comp_apply]
        split <;> rfl
      simp only [same]
      exact ok.ids
    · intro t member
      obtain ⟨old,present,rfl⟩ := mem_map.mp member
      split <;> exact ok.tracked old present

theorem reached_ok (reached : Reached history p) : PlaneOk history p := by
  have initial : ∀ p : Plane, p = {} → PlaneOk history p := by
    rintro p rfl
    refine ⟨Indexer.reached_ok (.start rfl),?_,by simp,by simp⟩
    intro cursor member
    cases member
  exact Reachable.invariant initial (fun _ _ => step_ok) reached

end Steps

-- A pass that leaves a job alone has every indexed log of its role topics folded.
theorem indexed_role_logs_folded {history : ChainHistory} {p : Plane} (reached : Reached history p)
    (limit : Nat) {t : Tracked}
    (member : t ∈ p.tracked) (examined : t.job.id ∈ (reconcileRoleSetDrift p.index limit p.jobs).examined)
    (passed : t.job.id ∉ (reconcileRoleSetDrift p.index limit p.jobs).selected)
    (idle : addressHasActiveJob (reconcileRoleSetDrift p.index limit p.jobs).jobs t.job = false) {fold : Fold}
    (folded : fold ∈ t.folds) (warm : authorityBackfilled p.index fold.authority = true) :
    ∀ log ∈ p.index.logs, log.key.address = fold.authority → log.key.topic0 ∈ fold.topic0s →
    storedRow log ∈ fold.gathered.rows ∨
      fold.gathered.pinnedBlock < log.entry.blockNumber ∧ log.entry.blockNumber ≤ fold.gathered.foldFrontier := by
  have ok := reached_ok reached
  intro log stored address topic
  obtain ⟨right,shown⟩ := (ok.tracked t member).2 fold folded
  obtain ⟨standard,known,topics⟩ := right.standard
  -- The pass found no drift at any frontier of the job.
  have all : (p.jobs.map Job.id).Nodup := by simpa [Plane.jobs,Function.comp_def] using ok.ids
  have queued : t.job ∈ p.jobs.filter fun job => job.status = .completed ∧ job.stage = .done := by
    rcases examined_pass _ _ _ examined with early | inside
    · cases early
    · obtain ⟨job,chosen,same⟩ := mem_map.mp inside
      have equal : job = t.job := inj_on_of_nodup_map all (mem_of_mem_filter chosen) (mem_map_of_mem member) same
      exact equal ▸ chosen
  have still := examined_no_drift _ (all.sublist (filter_sublist.map _)) {jobs:=p.jobs} queued
    (by simp) examined passed idle
  obtain ⟨least,below,listed⟩ := mem_frontiers shown
  have quiet := still fold.authority least listed
  rw [hasDrift,warm,Bool.true_and] at quiet
  have within : log.entry.blockNumber ≤ fold.gathered.foldFrontier := by
    by_contra beyond
    rw [roleRowPastFrontier,any_eq_false] at quiet
    have role : log.key.topic0 ∈ allTopic0s.map lower := by
      rw [topics] at topic
      exact mem_map.mpr ⟨_,standards_topics known topic,standards_lowered known _ topic⟩
    apply quiet log stored
    simp only [Bool.and_eq_true,decide_eq_true_eq]
    refine ⟨⟨?_,role⟩,by omega⟩
    rw [address]
  by_cases past : fold.gathered.pinnedBlock < log.entry.blockNumber
  · exact .inr ⟨past,within⟩
  · left
    have onChain : log ∈ history.logs := by
      obtain ⟨cursor,present,key⟩ := ok.world.store.owned log stored
      have rows := (ok.world.store.exact cursor present log.entry).mp (by rw [key]; exact stored)
      rw [key,history.logs_iff] at rows
      exact rows.1
    rw [right.rows]
    apply mem_map_of_mem
    simp only [History.through,History.covers,mem_filter,Bool.decide_and,Bool.and_eq_true,decide_eq_true_eq]
    exact ⟨onChain,⟨address.trans right.lowered.symm,topic⟩,Nat.le_of_not_lt past⟩

def registry : String := "0xaaaaaaaaaaaaaaaaaaaaaaaaaaaaaaaaaaaaaaaa"

def roleGrant (block : Nat) (txHash holder : String) : Entry :=
  { txHash,logIndex:=0,blockNumber:=block,blockHash:="0xb",transactionIndex:=0
    topics:=[roleSet,holder,"0x0000000000000000000000000000000000000000000000000000000000000001",
      "0x0000000000000000000000000000000000000000000000000000000000000001"]
    dataWords:=[] }

def firstGrant : Entry := roleGrant 50 "0xt1" "0x000000000000000000000000bbbbbbbbbbbbbbbbbbbbbbbbbbbbbbbbbbbbbbbb"

def laterGrant : Entry := roleGrant 105 "0xt2" "0x000000000000000000000000cccccccccccccccccccccccccccccccccccccccc"

def registryKey : Key := ⟨registry,roleSet⟩

theorem registry_address : isAddress registry = true ∧ lower registry = registry := by decide +kernel

theorem roleSet_lower : lower roleSet = roleSet := by decide +kernel

theorem roleGrant_topic0 : (roleGrant block txHash holder).topic0 = some roleSet := by
  simp [roleGrant,Entry.topic0,roleSet_lower]

def grants : ChainHistory where
  logs := [⟨registryKey,firstGrant⟩,⟨registryKey,laterGrant⟩]
  ordered := by decide
  named := by
    intro log member
    simp only [mem_cons,not_mem_nil,or_false] at member
    rcases member with rfl | rfl <;> exact roleGrant_topic0
  identified := by
    intro a first b second hash _
    simp only [mem_cons,not_mem_nil,or_false] at first second
    rcases first with rfl | rfl <;> rcases second with rfl | rfl
    · rfl
    · exact absurd hash (by decide)
    · exact absurd hash (by decide)
    · rfl

def bases : Bases := fun _ => (some .predicateTreeHint,some .creationBlockMinusOne)

theorem grants_floors (seeded : ∀ cursor ∈ store.cursors, cursor.enrolledSeedBlock = 0) :
    FloorsRight grants bases store := by
  intro cursor member _ entry inside
  rw [seeded cursor member]
  simp only [grants,mem_cons,IndexedEventLog.mk.injEq,not_mem_nil,or_false] at inside
  rcases inside with ⟨_,rfl⟩ | ⟨_,rfl⟩
  · decide
  · decide

def registryPlane (store : Store) (visits : List Visit) (events : List Event) (tracked : List Tracked) : Plane :=
  {world:={store,visits,history:=events},bases,tracked}

theorem Reached.act_alone (reached : Reached grants (registryPlane store [v] events tracked))
    (acts : Acts grants.chain store v store' onward events') (floors : FloorsRight grants bases store') :
    Reached grants (registryPlane store' onward.toList (events ++ events') tracked) := by
  have step := @Indexer.Step.act grants.chain {store,visits:=[v],history:=events} [] v [] store' onward events' rfl acts
  have moved : Step grants (registryPlane store [v] events tracked) _ := .indexing step floors
  simpa [Reached,registryPlane] using next reached moved

def registryCursor (last : Nat) (hash : Option String) (complete : Bool) : IndexedEventCursor :=
  {key:=registryKey,lastIndexedBlock:=last,lastIndexedBlockHash:=hash,backfillComplete:=complete,enrolledSeedBlock:=0}

theorem grants_page (fromBlock toBlock : Nat) (logs : List FetchedEventLog)
    (holds : logs = ([firstGrant,laterGrant].filter fun entry => fromBlock ≤ entry.blockNumber ∧
      entry.blockNumber ≤ toBlock).map
        fun entry => {entry}) : Faithful grants.chain [registry] [roleSet] ⟨fromBlock,toBlock,logs⟩ := by
  subst holds
  have topics : ∀ entry ∈ [firstGrant,laterGrant], entry.topic0 = some roleSet ∧ grants.chain.holds registry entry := by
    intro entry member
    refine ⟨?_,roleSet,?_⟩
    · simp only [mem_cons,not_mem_nil,or_false] at member
      rcases member with rfl | rfl <;> exact roleGrant_topic0
    · simpa [grants,registryKey] using member
  constructor
  · intro log member
    obtain ⟨entry,inside,rfl⟩ := mem_map.mp member
    obtain ⟨present,range⟩ := mem_filter.mp inside
    obtain ⟨topic,held⟩ := topics entry present
    have range := of_decide_eq_true range
    exact ⟨by simp [Indexer.emitter,singleAddress],held,⟨roleSet,by simp,topic⟩,range.1,range.2⟩
  · rintro address member entry ⟨topic,held⟩ _ low high
    obtain rfl := mem_singleton.mp member
    refine ⟨{entry},mem_map_of_mem (mem_filter.mpr ⟨?_,decide_eq_true ⟨low,high⟩⟩),rfl,rfl⟩
    simp only [grants,mem_cons,IndexedEventLog.mk.injEq,not_mem_nil,or_false] at held
    simp only [mem_cons,not_mem_nil,or_false]
    exact held.imp And.right And.right

def registryStore (last : Nat) (hash : Option String) (complete : Bool) (logs : List IndexedEventLog) : Store :=
  {cursors:=[registryCursor last hash complete],logs}

theorem registryStore_floors (last : Nat) (hash : Option String) (complete : Bool) (logs : List IndexedEventLog) :
    FloorsRight grants bases (registryStore last hash complete logs) := by
  apply grants_floors
  intro cursor member
  obtain rfl := mem_singleton.mp member
  rfl

def registryVisit (last target : Nat) (hash : Option String) (read : List Nat) (phase : Phase) : Visit :=
  { plan:={addresses:=[registry],members:=[⟨registryKey,last,hash⟩],rewinds:=[]}
    target,hashAt:=fun _ => some "0xh",read,expected:=[⟨registryKey,last,hash⟩],rewindPending:=false,phase }

theorem registryVisit_frontier (behind : last < target) (hash : Option String) (read : List Nat)
    (phase : Phase) : (registryVisit last target hash read phase).frontier = last := by
  simp [registryVisit,Indexer.Visit.frontier,Indexer.Visit.position,behind,Nat.min_eq_right (Nat.le_of_lt behind)]

theorem read_on {hash : Option String}
    (behind : last < entry.blockNumber) (within : entry.blockNumber ≤ target)
    (topic : entry.topic0 = some roleSet) (stamp : hash = none ∨ hash = some "0xh")
    (page : Faithful grants.chain [registry] [roleSet] ⟨last + 1,target,[{entry}]⟩)
    (fresh : logs.any (Indexer.sameIdentity ⟨registryKey,entry⟩) = false)
    (reached : ∃ events, Reached grants (registryPlane (registryStore last hash complete logs) [] events tracked)) :
    ∃ events, Reached grants
      (registryPlane (registryStore target (some "0xh") true (logs ++ [⟨registryKey,entry⟩])) [] events tracked) := by
  obtain ⟨events,reached⟩ := reached
  have onward : last < target := by omega
  have floors := registryStore_floors
  have plan : planGroup (registryStore last hash complete logs) [registry] target (fun _ => some "0xh") 20 =
    {addresses:=[registry],members:=[⟨registryKey,last,hash⟩],rewinds:=[]} := by
    rcases stamp with rfl | rfl <;>
      simp [planGroup,Indexer.checkMember,Indexer.Store.memberPositions,Indexer.Store.group,
        registryStore,registryCursor,
        registryKey,Indexer.IndexedEventCursor.position]
  have positions : ∀ hash complete logs, (registryStore last hash complete logs).memberPositions [registry] =
    [⟨registryKey,last,hash⟩] := by
    simp [Indexer.Store.memberPositions,Indexer.Store.group,registryStore,registryCursor,registryKey,
      Indexer.IndexedEventCursor.position]
  have visited : Reached grants (registryPlane (registryStore last hash complete logs)
    [registryVisit last target hash [] .planned] events tracked) := by
    have opened := @Indexer.Step.visit grants.chain {store:=registryStore last hash complete logs,history:=events}
      [registry] target (fun _ => some "0xh") 20 []
    have step := next reached (.indexing opened (floors _ _ _ _))
    simpa [Reached,plan,positions,registryPlane,registryVisit] using step
  have started : Reached grants (registryPlane (registryStore last hash complete logs)
    [registryVisit last target hash [] .chunks] events tracked) := by
    have step := Reached.act_alone visited (.start rfl ⟨⟨registryKey,last,hash⟩,by simp [registryVisit],onward⟩)
      (floors _ _ _ _)
    simpa [registryVisit,Indexer.Visit.unstamped,Indexer.Visit.position,Nat.not_le_of_lt onward] using step
  have asked : Reached grants (registryPlane (registryStore last hash complete logs)
    [registryVisit last target hash [target] (.pages [roleSet] target (last + 1))] events tracked) := by
    have step := Reached.act_alone started (.chunk (target - last) target rfl
      (by rw [registryVisit_frontier onward]; exact onward)
      (by rw [registryVisit_frontier onward]; exact (Nat.min_eq_left (by omega)).symm)) (floors _ _ _ _)
    rw [registryVisit_frontier onward] at step
    simpa [registryVisit,Indexer.Visit.wantedTopics,Indexer.Visit.position,onward,registryKey] using step
  have fetched : Reached grants (registryPlane (registryStore last hash complete logs)
    [registryVisit last target hash [target] (.prefixes [roleSet] target (target + 1) [{entry}] [(0,1,target)])]
      events tracked) := by
    have step := Reached.act_alone asked (.page 1 1 rfl page rfl (Nat.le_refl _) onward) (floors _ _ _ _)
    simpa [registryVisit,Indexer.Visit.receive,Indexer.writePrefixes,Blocks.blocks,Indexer.prefixLoop] using step
  have commit :
    (registryVisit last target hash [target]
      (.prefixes [roleSet] target (target + 1) [{entry}] [(0,1,target)])).writePrefix
    [roleSet] [{entry}] 0 1 target (registryStore last hash complete logs) =
    .ok (registryStore target (some "0xh") true (logs ++ [⟨registryKey,entry⟩])) := by
    have locked : lockMembers [registry] [⟨registryKey,last,hash⟩] (registryStore last hash complete logs) = .ok () :=
      by
      simp [lockMembers,positions]
    have bucket : bucketLogs (singleAddress [registry]) [registry] (slice [{entry}] 0 1) =
      .ok [⟨registryKey,entry⟩] := by
      simp [bucketLogs,singleAddress,slice,topic,registryKey]
    have inserted : bulkInsertLogs logs [⟨registryKey,entry⟩] = logs ++ [⟨registryKey,entry⟩] := by
      simp [bulkInsertLogs,Indexer.insertLog,fresh]
    have inside : registryKey.topic0 ∈ [roleSet] ∧ registryKey.address ∈ [registry] := by simp [registryKey]
    unfold Indexer.Visit.writePrefix
    simp only [registryVisit,locked,bucket,bind,Except.bind]
    simp [registryStore,registryCursor,Indexer.writeCursors,Indexer.advanceCursor,Indexer.settleCursor,
      Indexer.PrefixWrite.memberLogs,
      Indexer.Visit.stamp,onward,behind,inserted,inside,bind,Except.bind,pure,Except.pure]
  have written := Reached.act_alone fetched (.commit rfl commit)
    (floors target (some "0xh") true (logs ++ [⟨registryKey,entry⟩]))
  exact ⟨_,.act_alone written .stop (floors _ _ _ _)⟩

def registryIndex (last : Nat) (logs : List IndexedEventLog) : EventIndex where
  cursors := [{ registryCursor last (some "0xh") true with
    enrollmentBasis:=some .predicateTreeHint,firstIndexedBlockBasis:=some .creationBlockMinusOne }]
  logs

def registryContext : StoreContext where
  block := some 100
  eventLogRepo := some (registryIndex 100 [⟨registryKey,firstGrant⟩])
  standard _ := some soladyEnumerableRoles
  calleeSelector _ := some "0x00000001"
  controllers _ := some []
  probe _ _ candidates _ := .answered false candidates
  getterMismatch _ _ _ _ _ := false
  scanEventTail _ _ frontier block := {complete:=false,fromBlock:=frontier + 1,toBlock:=block}

def firstGathered : Gathered := ⟨[storedRow ⟨registryKey,firstGrant⟩],100,100,none⟩

def firstHolder : String := "0xbbbbbbbbbbbbbbbbbbbbbbbbbbbbbbbbbbbbbbbb"

def firstSet : CapabilityExpr := exactMembers registry [firstHolder] firstGathered

def firstFold : Fold := ⟨registry,soladyEnumerableRoles.topic0s,firstGathered⟩

theorem first_resolved : resolve (registryIndex 100 [⟨registryKey,firstGrant⟩]) registry "0x00000001" registryContext =
    .ok (soladyEnumerableRoles,firstGathered,firstSet) := by
  have gathers : gatherRows
    (registryIndex 100 [⟨registryKey,firstGrant⟩]) registry soladyEnumerableRoles.topic0s registryContext =
    .ok firstGathered := by
    decide +kernel
  have holders : foldActiveHolders firstGathered.rows = [firstHolder] := by decide +kernel
  have candidates : Sorted.sortedSet [firstHolder] = [firstHolder] := by decide +kernel
  have confirmed : confirm registry "0x00000001" soladyEnumerableRoles registryContext firstGathered = .ok firstSet :=
    by
    unfold confirm
    simp only [holders]
    simp [registryContext,candidates,firstGathered,firstSet]
  rw [resolve]
  simp only [registryContext] at gathers confirmed ⊢
  simp only [gathers,confirmed,bind,Except.bind,pure,Except.pure]

def vaultJob (id : Nat) (status : JobStatus) (stage : JobStage) (functions : List CapDict) : Job :=
  {id,address:=some "0xvault",status,stage,functions}

def publishedJob : Tracked := {job:=vaultJob 1 .completed .done [capabilityToDict firstSet],folds:=[firstFold]}

theorem published_reached : ∃ events, Reached grants
    (registryPlane (registryStore 100 (some "0xh") true [⟨registryKey,firstGrant⟩]) [] events [publishedJob]) := by
  have empty : Reached grants {} := .start rfl
  have known := next empty (.witness bases (by intro cursor member; cases member))
  have enrolled : Reached grants (registryPlane (registryStore 0 none false []) [] [] []) :=
    next known (.indexing (@Indexer.Step.enroll grants.chain {} [] [] registryKey 0 rfl (by simp))
      (registryStore_floors 0 none false []))
  have read := read_on (by decide) (by decide) (roleGrant_topic0) (.inl rfl)
    (grants_page 1 100 [{entry:=firstGrant}] (by decide)) rfl ⟨_,enrolled⟩
  obtain ⟨events,read⟩ := read
  have queued := next read (.queue [{job:=vaultJob 1 .processing .policy []}]
    ⟨by simp,by intro t member; obtain rfl := mem_singleton.mp member; exact .inl ⟨rfl,rfl,rfl⟩⟩)
  have address : resolveAuthority {authorityAddress:=some registry} registryContext.toEvaluationContext =
    some registry := by
    decide +kernel
  have enumerated := next queued (@Step.enumerate grants _ [] _ [] {authorityAddress:=some registry} registryContext
    registry _ _ _ _ rfl rfl address rfl (by intro _ _ _ _ _ complete; cases complete) (by simp [standards])
    first_resolved)
  rw [enumerate_exact rfl address rfl first_resolved] at enumerated
  have published := next enumerated (@Step.publish grants _ [] _ [] [capabilityToDict firstSet] rfl
    (by intro resolved member; obtain rfl := mem_singleton.mp member; simp))
  exact ⟨events,published⟩

theorem overtaken_reached : ∃ events, Reached grants
    (registryPlane (registryStore 110 (some "0xh") true [⟨registryKey,firstGrant⟩,⟨registryKey,laterGrant⟩]) [] events
      [publishedJob,{job:=vaultJob 2 .queued .policy []}]) := by
  obtain ⟨events,read⟩ := read_on (by decide) (by decide) (roleGrant_topic0) (.inr rfl)
    (grants_page 101 110 [{entry:=laterGrant}] (by decide)) (by decide) published_reached
  refine ⟨events,.next read (.queue _ ⟨by decide,?_⟩)⟩
  intro t member
  simp only [mem_cons,not_mem_nil,or_false] at member
  rcases member with rfl | rfl
  · exact .inr ⟨publishedJob,mem_singleton.mpr rfl,rfl,rfl,rfl,rfl⟩
  · exact .inl ⟨rfl,rfl,rfl⟩

theorem published_frontiers : publishedJob.job.frontiers = [(registry,100)] := by
  have found : iterRoleStoreFrontiers (capabilityToDict firstSet) = [(registry,100)] :=
    exactMembers_frontiers registry_address.1 registry_address.2 [firstHolder] firstGathered
  simp [publishedJob,vaultJob,Job.frontiers,found,lowerFrontier,Dict.put]

-- The pass leaves the vault's finished job; the grant at 105 is indexed and not folded.
theorem overtaken_job_left : ∃ p, Reached grants p ∧ ∃ t ∈ p.tracked, ∃ fold ∈ t.folds,
    (fold.authority,fold.gathered.foldFrontier) ∈ t.job.frontiers ∧
    t.job.id ∈ (reconcileRoleSetDrift p.index 5 p.jobs).examined ∧ t.job.id ∉
    (reconcileRoleSetDrift p.index 5 p.jobs).selected ∧
    ∃ log ∈ p.index.logs, log.key.address = fold.authority ∧ log.key.topic0 ∈ fold.topic0s ∧
      storedRow log ∉ fold.gathered.rows ∧ fold.gathered.foldFrontier < log.entry.blockNumber := by
  obtain ⟨events,reached⟩ := overtaken_reached
  refine ⟨_,reached,publishedJob,by simp [registryPlane],firstFold,mem_singleton.mpr rfl,?_,?_,?_,
    ⟨registryKey,laterGrant⟩,by simp [registryPlane,Plane.index,registryStore],rfl,mem_singleton.mpr rfl,?_,by decide⟩
  · rw [published_frontiers]
    exact mem_singleton.mpr rfl
  · simp [reconcileRoleSetDrift,examine,drifted,addressHasActiveJob,registryPlane,Plane.jobs,publishedJob,vaultJob]
  · simp [reconcileRoleSetDrift,examine,drifted,addressHasActiveJob,registryPlane,Plane.jobs,publishedJob,vaultJob]
  · simp [firstFold,firstGathered,storedRow,laterGrant,firstGrant,roleGrant]

-- Before the registry moves on, the pass leaves the job as nothing is missing.
theorem indexed_role_logs_folded_published : ∃ p, Reached grants p ∧ publishedJob ∈ p.tracked ∧
    ∀ log ∈ p.index.logs, log.key.address = registry → log.key.topic0 ∈ soladyEnumerableRoles.topic0s →
      storedRow log ∈ firstGathered.rows ∨ 100 < log.entry.blockNumber ∧ log.entry.blockNumber ≤ 100 := by
  obtain ⟨events,reached⟩ := published_reached
  have member : publishedJob ∈ (registryPlane (registryStore 100 (some "0xh") true [⟨registryKey,firstGrant⟩]) [] events
    [publishedJob]).tracked := mem_singleton.mpr rfl
  have quiet : hasDrift (registryIndex 100 [⟨registryKey,firstGrant⟩]) registry 100 = false := by
    simp [hasDrift,roleRowPastFrontier,registryIndex,firstGrant,roleGrant]
  have warm : authorityBackfilled (registryIndex 100 [⟨registryKey,firstGrant⟩]) registry = true := by
    simp [authorityBackfilled,registryIndex,registryCursor,registryKey,cursorPermitsExactness,
      enrollmentBasisPermitsExactness]
  have idle : addressHasActiveJob [publishedJob.job] publishedJob.job = false :=
    by simp [addressHasActiveJob,publishedJob,vaultJob]
  have pass : reconcileRoleSetDrift (registryIndex 100 [⟨registryKey,firstGrant⟩]) 5 [publishedJob.job] =
    {jobs:=[publishedJob.job],examined:=[1]} := by
    have left_ : drifted (registryIndex 100 [⟨registryKey,firstGrant⟩]) [publishedJob.job] publishedJob.job = false :=
      by
      simp [drifted,published_frontiers,quiet]
    have done : publishedJob.job.status = .completed ∧ publishedJob.job.stage = .done ∧ publishedJob.job.id = 1 :=
      ⟨rfl,rfl,rfl⟩
    simp [reconcileRoleSetDrift,examine,left_,done]
  refine ⟨_,reached,member,?_⟩
  apply indexed_role_logs_folded reached 5 member _ _ _ (mem_singleton.mpr rfl : firstFold ∈ publishedJob.folds) warm
  · exact (congrArg Pass.examined pass) ▸ mem_singleton.mpr rfl
  · exact (congrArg Pass.selected pass) ▸ not_mem_nil
  · exact (congrArg Pass.jobs pass) ▸ idle

end Psat.Roles.Store
