import Psat.Monitoring.Coverage

namespace Psat.Monitoring
open Psat.General List

def FetchedEventLog.Before (one other : FetchedEventLog) : Prop :=
  one.blockNumber < other.blockNumber ∨ one.blockNumber = other.blockNumber ∧ one.logIndex < other.logIndex

instance (one other : FetchedEventLog) : Decidable (one.Before other) := inferInstanceAs (Decidable (_ ∨ _))

def MonitoredEvent.Before (one other : MonitoredEvent) : Prop :=
  one.blockNumber < other.blockNumber ∨ one.blockNumber = other.blockNumber ∧
    one.identity.logIndex < other.identity.logIndex

-- A live event of the contract with a value for the key.
structure Sets (id : ContractId) (key : String) (event : MonitoredEvent) : Prop where
  live : event.historical = false
  contract : event.identity.contractId = id
  value : (event.data.carries key).isSome = true

structure Latest (events : List MonitoredEvent) (id : ContractId) (key : String) (event : MonitoredEvent) : Prop where
  recorded : event ∈ events
  sets : Sets id key event
  last : ∀ other ∈ events, Sets id key other → other = event ∨ other.Before event

-- The state shows the latest value of every key that events have set.
def Current (db : Database) : Prop :=
  ∀ id mc, db.contracts id = some mc → ∀ key, (∃ event ∈ db.events, Sets id key event) →
    ∃ event, Latest db.events id key event ∧ mc.lastKnownState.lookup key = event.data.carries key

theorem publishes_place (published : publishes decoders byAddress db log = some event) :
    event.blockNumber = log.blockNumber ∧ event.identity.logIndex = log.logIndex := by
  obtain ⟨decoded,_,published⟩ := Option.bind_eq_some_iff.mp published
  obtain ⟨emitter,_,published⟩ := Option.bind_eq_some_iff.mp published
  obtain ⟨mc,_,published⟩ := Option.bind_eq_some_iff.mp published
  split at published
  · cases published
    exact ⟨rfl,rfl⟩
  · cases published

theorem publishes_congr
    (same : ∀ id, (other.contracts id).map (fun mc => (mc.config,mc.enrollmentBlock)) = (db.contracts id).map
      fun mc => (mc.config,mc.enrollmentBlock)) : publishes decoders byAddress other log =
      publishes decoders byAddress db log := by
  refine Option.bind_congr fun decoded _ => Option.bind_congr fun emitter _ => ?_
  have row := same emitter.id
  cases one : other.contracts emitter.id with
  | none =>
    rw [one] at row
    rw [Option.map_eq_none_iff.mp row.symm]
  | some mc =>
    rw [one] at row
    obtain ⟨held,found,equal⟩ := Option.map_eq_some_iff.mp row.symm
    have config : held.config = mc.config := congrArg Prod.fst equal
    have enrolled : held.enrollmentBlock = mc.enrollmentBlock := congrArg Prod.snd equal
    rw [found]
    dsimp only [Option.bind_some]
    unfold resolveSpecTier
    rw [config,enrolled]

-- No log still to be processed publishes a value older than a recorded one of the same key.
def Timely (decoders : Decoders) (byAddress : List (Address × Hydrated)) (db : Database) (logs : List FetchedEventLog) :
    Prop :=
  ∀ log ∈ logs, ∀ event, publishes decoders byAddress db log = some event →
    (∀ recorded ∈ db.events, recorded.identity ≠ event.identity) →
    ∀ id key, Sets id key event → ∀ recorded ∈ db.events, Sets id key recorded → recorded.Before event

theorem recordEvent_events :
    (recordEvent db event).events = if db.events.any (·.identity = event.identity) then db.events
    else db.events ++ [event] := by
  unfold recordEvent runEffects Database.update
  split
  · rfl
  · dsimp only
    split <;> rfl

theorem recordEvent_current (current : Current db)
    (timely : (∀ recorded ∈ db.events, recorded.identity ≠ event.identity) → ∀ id key, Sets id key event →
      ∀ recorded ∈ db.events, Sets id key recorded → recorded.Before event) : Current (recordEvent db event) := by
  unfold recordEvent
  split
  · exact current
  · rename_i new
    have unrecorded : ∀ recorded ∈ db.events, recorded.identity ≠ event.identity :=
      fun recorded inside same => new (any_eq_true.mpr ⟨recorded,inside,decide_eq_true same⟩)
    have before := timely unrecorded
    -- A key the event does not set keeps its latest event.
    have old {id : ContractId} {key : String} {mc : MonitoredContract} (there : db.contracts id = some mc)
      (not : ¬Sets id key event)
      (some : ∃ recorded ∈ db.events ++ [event], Sets id key recorded) :
      ∃ latest, Latest (db.events ++ [event]) id key latest ∧ mc.lastKnownState.lookup key = latest.data.carries key :=
        by
      have earlier : ∃ recorded ∈ db.events, Sets id key recorded := by
        obtain ⟨recorded,inside,sets⟩ := some
        rcases mem_append.mp inside with held | now
        · exact ⟨recorded,held,sets⟩
        · exact absurd (mem_singleton.mp now ▸ sets) not
      obtain ⟨latest,is,value⟩ := current id mc there key earlier
      refine ⟨latest,⟨mem_append_left _ is.recorded,is.sets,fun other inside sets => ?_⟩,value⟩
      rcases mem_append.mp inside with held | now
      · exact is.last other held sets
      · exact absurd (mem_singleton.mp now ▸ sets) not
    split
    · rename_i historical
      intro id mc there key some
      refine old there (fun sets => ?_) some
      rw [sets.live] at historical
      cases historical
    · rename_i live
      intro id mc there key some
      unfold runEffects Database.update at there some ⊢
      dsimp only at there some ⊢
      by_cases same : id = event.identity.contractId
      · rw [if_pos same] at there
        obtain ⟨row,held,is⟩ := Option.map_eq_some_iff.mp there
        rw [← same] at held
        have state : mc.lastKnownState.lookup key = (event.data.carries key).or (row.lastKnownState.lookup key) := by
          rw [← is]
          exact Dict.lookup_write _ _ _
        rw [state]
        by_cases sets : Sets id key event
        · obtain ⟨value,carried⟩ := Option.isSome_iff_exists.mp sets.value
          refine ⟨event,⟨mem_append_right _ (mem_singleton_self _),sets,fun other inside also => ?_⟩,
            by rw [carried]; rfl⟩
          rcases mem_append.mp inside with earlier | now
          · exact .inr (before id key sets other earlier also)
          · exact .inl (mem_singleton.mp now)
        · have none : event.data.carries key = none := by
            cases carried : event.data.carries key with
            | none => rfl
            | some value => exact absurd ⟨Bool.eq_false_iff.mpr live,same.symm,by rw [carried]; rfl⟩ sets
          rw [none]
          exact old held sets some
      · rw [if_neg same] at there
        exact old there (fun sets => same sets.contract.symm) some

theorem Timely.rest (timely : Timely decoders byAddress db (log :: logs))
    (ordered : ∀ later ∈ logs, log.Before later) : Timely decoders byAddress
    (processLog decoders byAddress db log) logs := by
  unfold processLog
  cases published : publishes decoders byAddress db log with
  | none => exact (forall_mem_cons.mp timely).2
  | some event =>
    intro later inside other also unrecorded id key sets recorded held earlier
    change publishes decoders byAddress (recordEvent db event) later = some other at also
    change ∀ recorded ∈ (recordEvent db event).events, recorded.identity ≠ other.identity at unrecorded
    change recorded ∈ (recordEvent db event).events at held
    rw [publishes_congr (recordEvent_field (fun _ _ => rfl) db event)] at also
    rw [recordEvent_events] at held unrecorded
    have past (recorded : MonitoredEvent) (held : recorded ∈ db.events)
      (earlier : Sets id key recorded) : recorded.Before other := by
      refine timely later (mem_cons_of_mem _ inside) other also
        (fun recorded held => ?_) id key sets recorded held earlier
      refine unrecorded recorded ?_
      split
      · exact held
      · exact mem_append_left _ held
    split at held
    · exact past recorded held earlier
    · rcases mem_append.mp held with old | now
      · exact past recorded old earlier
      · rw [mem_singleton.mp now]
        obtain ⟨block,index⟩ := publishes_place published
        obtain ⟨block',index'⟩ := publishes_place also
        unfold MonitoredEvent.Before
        rw [block,index,block',index']
        exact ordered later inside

theorem processLogs_current (current : Current db) (timely : Timely decoders byAddress db logs)
    (ordered : logs.Pairwise FetchedEventLog.Before) : Current (processLogs decoders byAddress db logs) := by
  induction logs generalizing db with
  | nil => exact current
  | cons first rest ih =>
    rw [pairwise_cons] at ordered
    refine ih ?_ (timely.rest ordered.1) ordered.2
    unfold processLog
    cases published : publishes decoders byAddress db first with
    | none => exact current
    | some event => exact recordEvent_current current (timely first mem_cons_self event published)

-- The logs of every window in progress come in chain order.
def InChainOrder (w : World) : Prop :=
  ∀ pass ∈ w.passes, ∀ work, pass.work = some work → work.logs.Pairwise FetchedEventLog.Before

-- No log a window still has to process publishes a value older than a recorded one.
def InTime (decoders : Decoders) (w : World) : Prop :=
  ∀ pass ∈ w.passes, ∀ work, pass.work = some work → Timely decoders work.byAddress w.db (work.logs.drop work.processed)

-- A window writes a row's state from the copy it read at its start; the copy is
-- the row as long as no two windows in progress hold the row.
def RowsApart (w : World) : Prop :=
  w.passes.Pairwise fun one other => ∀ work ∈ one.work, ∀ second ∈ other.work, ∀ held ∈ work.byAddress,
    ∀ also ∈ second.byAddress, held.2.id ≠ also.2.id

theorem Timely.sublist {logs some : List FetchedEventLog}
    (timely : Timely decoders byAddress db logs) (part : some.Sublist logs) : Timely decoders byAddress db some :=
  fun log inside => timely log (part.subset inside)

theorem advanceCursors_current (current : Current db) : Current (advanceCursors db memberIds windowEnd) := by
  intro id mc there key some
  unfold advanceCursors at there
  dsimp only at there
  split at there
  · obtain ⟨row,held,is⟩ := Option.map_eq_some_iff.mp there
    rw [← is]
    exact current id row held key some
  · exact current id mc there key some

theorem step_current (current : Current w.db) (ordered : InChainOrder w) (timely : InTime decoders w)
    (step : Step registry decoders logsOf w later) : Current later.db := by
  cases step with
  | part more running busy =>
    have inside := mem_of_getElem? running
    refine processLogs_current current ((timely _ inside _ busy).sublist (take_sublist _ _)) ?_
    exact (ordered _ inside _ busy).sublist ((take_sublist _ _).trans (drop_sublist _ _))
  | close renewed running busy found =>
    have inside := mem_of_getElem? running
    refine advanceCursors_current (processLogs_current current (timely _ inside _ busy) ?_)
    exact (ordered _ inside _ busy).sublist (drop_sublist _ _)
  | track id spec =>
    intro other mc there key some
    unfold Database.update at there
    dsimp only at there
    split at there
    · rename_i same
      obtain ⟨row,held,is⟩ := Option.map_eq_some_iff.mp there
      rw [← is]
      exact current other row (same ▸ held) key some
    · exact current other mc there key some
  | _ => exact current

theorem monitored_state_never_goes_back {registry : List Topic} {decoders : Decoders}
    {logsOf : Chain → List FetchedEventLog} {start w : World}
    (unrecorded : start.db.events = [])
    (runs : RunsWithin registry decoders logsOf (fun w => InChainOrder w ∧ InTime decoders w ∧ RowsApart w) start w) :
    Current w.db := by
  induction runs with
  | refl =>
    intro id mc _ key some
    obtain ⟨event,inside,_⟩ := some
    rw [unrecorded] at inside
    cases inside
  | tail _ step ih => exact step_current ih step.2.1 step.2.2.1 step.1

theorem quiet_ordered (w : World) (quiet : ∀ pass ∈ w.passes, pass.work = none) : InChainOrder w ∧
    InTime ownerDecoders w ∧ RowsApart w := by
  refine ⟨fun pass inside work busy => ?_,fun pass inside work busy => ?_,?_⟩
  · rw [quiet pass inside] at busy
    cases busy
  · rw [quiet pass inside] at busy
    cases busy
  · refine Pairwise.imp_of_mem (fun inside _ _ work busy => ?_) (pairwise_of_forall fun _ _ => trivial)
    rw [quiet _ inside] at busy
    cases busy

theorem vaults_in_time (pass : Pass)
    (logs : pass.work.map (·.logs) = some [rotation ownershipTransferred 150 (account 'b')]) :
    InChainOrder ⟨vaults.db,[pass],[]⟩ ∧ InTime ownerDecoders ⟨vaults.db,[pass],[]⟩ ∧
      RowsApart ⟨vaults.db,[pass],[]⟩ := by
  refine ⟨fun other inside work busy => ?_,?_,pairwise_singleton _ _⟩
  on_goal 2 => exact fun _ _ _ _ _ _ _ _ _ _ _ _ _ none => by cases none
  rw [mem_singleton.mp inside] at busy
  rw [busy] at logs
  have same : work.logs = [rotation ownershipTransferred 150 (account 'b')] := Option.some.inj logs
  rw [same]
  exact pairwise_singleton _ _

theorem scanned_vault_current : (scanned.db.contracts 1).bind (·.lastKnownState.lookup "owner") = some
    (.text (account 'b')) ∧ Current scanned.db :=
  ⟨by decide +kernel,monitored_state_never_goes_back rfl (vaults_scanned quiet_ordered vaults_in_time)⟩

def ownerSpec : TrackedTopic :=
  {topic0:=ownerUpdated,eventType:="ownership_transferred",inputs:=["user","newOwner"],
   effectTags:=some {writes:=["owner"]},witnessTier:=some .selfDescribing}

def together : Limits := {singly with addressBatch:=200}

-- The first contract's config gains a topic once it has been scanned.
def tracking : World :=
  {scanned with db:=scanned.db.update 1 fun mc =>
                {mc with config:={mc.config with trackedTopics:=mc.config.trackedTopics ++ [ownerSpec]}}}

-- The next pass scans it again with the second contract, which is still behind.
def rescanned : World where
  db := advanceCursors (processLogs ownerDecoders (hydrate tracking.db [1,2] (vaultLogs "ethereum")) tracking.db
    (vaultLogs "ethereum")) [1,2] 200
  committed := scanned.committed ++ [⟨[1,2],1,200,vaultLogs "ethereum"⟩]

theorem rescan_sets_older_owner : Runs [ownershipTransferred] ownerDecoders vaultLogs vaults rescanned ∧
    (∀ window ∈ rescanned.committed, window.logs.Pairwise FetchedEventLog.Before) ∧
    (rescanned.db.contracts 1).bind (·.lastKnownState.lookup "owner") = some (.text (account 'a')) ∧
    rescanned.db.events.map
    (fun event => (event.identity.contractId,event.blockNumber,event.historical,event.data.carries "owner")) =
      [(1,150,false,some (.text (account 'b'))),(1,50,false,some (.text (account 'a')))] := by
  have picked : (turned together tracking.db).cohorts[0]?.map Cohort.key = some
    ("ethereum",[1,2],[account '1',account '2']) := by decide +kernel
  have track : Runs [ownershipTransferred] ownerDecoders vaultLogs scanned tracking := .single (.track 1 ownerSpec)
  have rescan : RunsWithin [ownershipTransferred] ownerDecoders vaultLogs (fun _ => True) tracking rescanned :=
    begun_runs (fun _ _ => trivial) (by decide +kernel) (by decide +kernel) picked (by decide +kernel) trivial
  refine ⟨(RunsWithin.runs vaults_ran).trans (track.trans (RunsWithin.runs rescan)),?_,by decide +kernel,
    by decide +kernel⟩
  intro window inside
  rcases mem_append.mp inside with first | second
  · rw [mem_singleton.mp first]
    exact pairwise_singleton _ _
  · rw [mem_singleton.mp second]
    unfold vaultLogs
    decide +kernel

end Psat.Monitoring
