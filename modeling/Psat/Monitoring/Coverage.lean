import Psat.Monitoring.Scanner

namespace Psat.Monitoring
open Psat.General List

-- What the scanner and the addition of topics leave of a row.
structure Later (old new : MonitoredContract) : Prop where
  address : new.address = old.address
  chain : new.chain = old.chain
  active : new.isActive = old.isActive
  cursor : old.lastScannedBlock ≤ new.lastScannedBlock
  topics : old.config.trackedTopics ⊆ new.config.trackedTopics

theorem Later.refl (mc : MonitoredContract) : Later mc mc := ⟨rfl,rfl,rfl,Nat.le_refl _,List.Subset.refl _⟩

theorem Later.trans (first : Later one two) (second : Later two three) : Later one three where
  address := second.address.trans first.address
  chain := second.chain.trans first.chain
  active := second.active.trans first.active
  cursor := Nat.le_trans first.cursor second.cursor
  topics := List.Subset.trans first.topics second.topics

structure Grows (before after : Database) : Prop where
  ids : after.ids = before.ids
  kept : ∀ id old, before.contracts id = some old → ∃ new, after.contracts id = some new ∧ Later old new
  known : ∀ id new, after.contracts id = some new → ∃ old, before.contracts id = some old ∧ Later old new

theorem Grows.refl (db : Database) : Grows db db :=
  ⟨rfl,fun _ old found => ⟨old,found,Later.refl old⟩,fun _ new found => ⟨new,found,Later.refl new⟩⟩

theorem Grows.trans (first : Grows one two) (second : Grows two three) : Grows one three where
  ids := second.ids.trans first.ids
  kept id old found := by
    obtain ⟨middle,between,earlier⟩ := first.kept id old found
    obtain ⟨new,after,later⟩ := second.kept id middle between
    exact ⟨new,after,earlier.trans later⟩
  known id new found := by
    obtain ⟨middle,between,later⟩ := second.known id new found
    obtain ⟨old,before,earlier⟩ := first.known id middle between
    exact ⟨old,before,earlier.trans later⟩

theorem grows_of_map {before after : Database} (ids : after.ids = before.ids)
    (change : ContractId → MonitoredContract → MonitoredContract)
    (rows : ∀ id, after.contracts id = (before.contracts id).map (change id))
    (later : ∀ id mc, Later mc (change id mc)) : Grows before after where
  ids := ids
  kept id old found := ⟨change id old,by rw [rows,found]; rfl,later id old⟩
  known id new found := by
    rw [rows] at found
    obtain ⟨old,before,same⟩ := Option.map_eq_some_iff.mp found
    exact ⟨old,before,same ▸ later id old⟩

theorem update_grows (db : Database) (id : ContractId) (later : ∀ mc, Later mc (change mc)) :
    Grows db (db.update id change) := by
  refine grows_of_map rfl (fun other mc => if other = id then change mc else mc) ?_ ?_
  · intro other
    unfold Database.update
    by_cases same : other = id
    · simp [same]
    · simp [same]
  · intro other mc
    split
    · exact later mc
    · exact Later.refl mc

theorem recordEvent_grows (db : Database) (event : MonitoredEvent) : Grows db (recordEvent db event) := by
  unfold recordEvent
  split
  · exact .refl db
  · dsimp only
    split
    · exact ⟨rfl,(Grows.refl db).kept,(Grows.refl db).known⟩
    · have later (mc : MonitoredContract) : Later mc
        {mc with lastKnownState:=updateStateFromEvent mc.lastKnownState event.data} :=
        ⟨rfl,rfl,rfl,Nat.le_refl _,List.Subset.refl _⟩
      have updated := update_grows {db with events:=db.events ++ [event]} event.identity.contractId later
      exact ⟨updated.ids,updated.kept,updated.known⟩

theorem processLogs_grows (decoders : Decoders) (byAddress : List (Address × Hydrated)) (logs : List FetchedEventLog)
    (db : Database) :
    Grows db (processLogs decoders byAddress db logs) := by
  induction logs generalizing db with
  | nil => exact .refl db
  | cons first rest ih =>
    refine .trans ?_ (ih _)
    unfold processLog
    cases publishes decoders byAddress db first with
    | none => exact .refl db
    | some event => exact recordEvent_grows db event

theorem advanceCursors_grows : Grows db (advanceCursors db memberIds windowEnd) := by
  refine grows_of_map rfl
    (fun id mc => if id ∈ memberIds then {mc with lastScannedBlock:=max mc.lastScannedBlock windowEnd} else mc) ?_ ?_
  · intro id
    unfold advanceCursors
    by_cases member : id ∈ memberIds
    · simp [member]
    · simp [member]
  · intro id mc
    split
    · exact ⟨rfl,rfl,rfl,Nat.le_max_left _ _,List.Subset.refl _⟩
    · exact Later.refl mc

theorem recordEvent_field {field : MonitoredContract → β}
    (blind : ∀ mc state, field {mc with lastKnownState:=state} = field mc) (db : Database)
    (event : MonitoredEvent) (id : ContractId) : ((recordEvent db event).contracts id).map field =
    (db.contracts id).map field := by
  unfold recordEvent runEffects Database.update
  split
  · rfl
  · dsimp only
    split
    · rfl
    · dsimp only
      by_cases same : id = event.identity.contractId
      · rw [if_pos same,Option.map_map,← same]
        exact congrArg (Option.map · _) (funext fun mc => blind mc _)
      · rw [if_neg same]

theorem processLogs_cursor (decoders : Decoders) (byAddress : List (Address × Hydrated)) (logs : List FetchedEventLog)
    (db : Database) (id : ContractId) :
    ((processLogs decoders byAddress db logs).contracts id).map (·.lastScannedBlock) = (db.contracts id).map
    (·.lastScannedBlock) := by
  induction logs generalizing db with
  | nil => rfl
  | cons first rest ih =>
    refine (ih _).trans ?_
    unfold processLog
    cases publishes decoders byAddress db first with
    | none => rfl
    | some event => exact recordEvent_field (fun _ _ => rfl) db event id

theorem batches_subset : ∀ batch ∈ batches size members, batch ⊆ members := by
  intro batch inside
  obtain ⟨i,_,rfl⟩ := mem_map.mp inside
  exact List.Subset.trans (take_subset _ _) (drop_subset _ _)

theorem lowest_le (inside : row ∈ batch) : lowest batch ≤ row.2.lastScannedBlock := by
  have fold (rest : List (ContractId × MonitoredContract)) (low : Nat) :
    rest.foldl (fun low row => min low row.2.lastScannedBlock) low ≤ low ∧
      ∀ row ∈ rest, rest.foldl (fun low row => min low row.2.lastScannedBlock) low ≤ row.2.lastScannedBlock := by
    induction rest generalizing low with
    | nil => exact ⟨Nat.le_refl _,fun _ none => by cases none⟩
    | cons first rest ih =>
      obtain ⟨below,each⟩ := ih (min low first.2.lastScannedBlock)
      refine ⟨Nat.le_trans below (Nat.min_le_left _ _),fun row inside => ?_⟩
      rcases mem_cons.mp inside with rfl | later
      · exact Nat.le_trans below (Nat.min_le_right _ _)
      · exact each row later
  cases batch with
  | nil => cases inside
  | cons first rest =>
    rcases mem_cons.mp inside with rfl | later
    · exact (fold rest row.2.lastScannedBlock).1
    · exact (fold rest first.2.lastScannedBlock).2 row later

theorem mem_cohortsOf (inside : cohort ∈ cohortsOf limits rows)
    {id : ContractId} (member : id ∈ cohort.memberIds) : ∃ mc, (id,mc) ∈ rows ∧ mc.chain = cohort.chain ∧
    Text.lower mc.address ∈ cohort.addresses ∧
      cohort.cursor ≤ mc.lastScannedBlock := by
  obtain ⟨bucket,_,made⟩ := mem_flatMap.mp inside
  obtain ⟨batch,batched,rfl⟩ := mem_map.mp made
  obtain ⟨row,inBatch,rfl⟩ := mem_map.mp member
  obtain ⟨inRows,same⟩ := mem_filter.mp (batches_subset batch batched inBatch)
  refine ⟨row.2,inRows,?_,mem_map_of_mem
    (f:=fun row : ContractId × MonitoredContract => Text.lower row.2.address) inBatch,lowest_le inBatch⟩
  exact congrArg Prod.fst (of_decide_eq_true same)

theorem mem_indexRows {id : ContractId} : (id,mc) ∈ indexRows db ↔ id ∈ db.ids ∧ db.contracts id = some mc ∧
    mc.isActive = true := by
  unfold indexRows
  rw [mem_filterMap]
  constructor
  · intro found
    obtain ⟨other,inside,is⟩ := found
    obtain ⟨held,filtered,same⟩ := Option.map_eq_some_iff.mp is
    obtain ⟨there,active⟩ := Option.filter_eq_some_iff.mp filtered
    cases same
    exact ⟨inside,there,active⟩
  · intro found
    obtain ⟨inside,there,active⟩ := found
    exact ⟨id,inside,by rw [there]; simp [Option.filter,active]⟩

theorem Grows.scanTopicsUnion {before after : Database} (grows : Grows before after) (registry : List Topic) :
    scanTopicsUnion registry before ⊆ scanTopicsUnion registry after := by
  intro topic inside
  rcases mem_append.mp inside with fixed | tracked
  · exact mem_append_left _ fixed
  · obtain ⟨⟨id,old⟩,row,named⟩ := mem_flatMap.mp tracked
    obtain ⟨inIds,there,active⟩ := mem_indexRows.mp row
    obtain ⟨new,after,later⟩ := grows.kept id old there
    refine mem_append_right _
      (mem_flatMap.mpr ⟨(id,new),mem_indexRows.mpr ⟨grows.ids.symm ▸ inIds,after,later.active.trans active⟩,?_⟩)
    obtain ⟨spec,inSpecs,same⟩ := mem_map.mp named
    obtain ⟨listed,nonempty⟩ := mem_filter.mp inSpecs
    exact mem_map.mpr ⟨spec,mem_filter.mpr ⟨later.topics listed,nonempty⟩,same⟩

-- Side effects are run for recorded events only, and once for each.
structure Once (db : Database) : Prop where
  recorded : ∀ identity ∈ db.effects, db.events.any (·.identity = identity) = true
  distinct : db.effects.Nodup

theorem recordEvent_once (once : Once db) (event : MonitoredEvent) : Once (recordEvent db event) := by
  have still (identity : Identity) (inside : identity ∈ db.effects) : (db.events ++ [event]).any
    (·.identity = identity) = true := by
    rw [any_append,once.recorded identity inside,Bool.true_or]
  unfold recordEvent
  split
  · exact once
  · rename_i new
    split
    · exact ⟨still,once.distinct⟩
    · refine ⟨?_,?_⟩
      · intro identity inside
        rcases mem_append.mp inside with old | now
        · exact still identity old
        · rw [mem_singleton.mp now]
          exact any_eq_true.mpr ⟨event,mem_append_right _ (mem_singleton_self _),decide_eq_true rfl⟩
      · refine nodup_append.mpr ⟨once.distinct,nodup_singleton _,?_⟩
        intro identity inside other now same
        rw [mem_singleton.mp now] at same
        subst same
        exact new (once.recorded _ inside)

theorem processLogs_once (once : Once db) (decoders : Decoders) (byAddress : List (Address × Hydrated))
    (logs : List FetchedEventLog) :
    Once (processLogs decoders byAddress db logs) := by
  induction logs generalizing db with
  | nil => exact once
  | cons first rest ih =>
    refine ih ?_
    unfold processLog
    cases publishes decoders byAddress db first with
    | none => exact once
    | some event => exact recordEvent_once once event

structure Alike (cohort other : Cohort) : Prop where
  chain : other.chain = cohort.chain
  memberIds : other.memberIds = cohort.memberIds
  addresses : other.addresses = cohort.addresses
  cursor : other.cursor = cohort.cursor

def Pass.Keeps (pass later : Pass) : Prop :=
  later.topics = pass.topics ∧ later.work = pass.work ∧
    ∀ (index : Nat) cohort, later.cohorts[index]? = some cohort → ∃ earlier, pass.cohorts[index]? = some earlier ∧
      Alike earlier cohort

theorem mark_alike {pass : Pass} {index position : Nat}
    (found : (pass.mark index change).cohorts[position]? = some cohort)
    (alike : ∀ cohort, Alike cohort (change cohort)) : ∃ earlier, pass.cohorts[position]? = some earlier ∧
    Alike earlier cohort := by
  unfold Pass.mark at found
  rw [getElem?_modify] at found
  obtain ⟨earlier,before,same⟩ := Option.map_eq_some_iff.mp found
  refine ⟨earlier,before,?_⟩
  rw [← same]
  split
  · exact alike earlier
  · exact ⟨rfl,rfl,rfl,rfl⟩

theorem settle_alike (pass : Pass) {position : Nat} (found : pass.settle.cohorts[position]? = some cohort) :
    ∃ earlier, pass.cohorts[position]? = some earlier ∧ Alike earlier cohort := by
  unfold Pass.settle at found
  rw [getElem?_map] at found
  obtain ⟨earlier,before,same⟩ := Option.map_eq_some_iff.mp found
  refine ⟨earlier,before,?_⟩
  rw [← same]
  split <;> exact ⟨rfl,rfl,rfl,rfl⟩

theorem next_moved {pass later : Pass} (next : pass.next = .moved later) : pass.Keeps later := by
  revert next
  fun_cases Pass.next pass with
  | case2 =>
    rintro ⟨⟩
    exact ⟨rfl,rfl,fun _ _ found => settle_alike pass found⟩
  | case5 turn =>
    rintro ⟨⟩
    refine ⟨rfl,rfl,fun position cohort found => ?_⟩
    have marked : (pass.mark turn.index ({· with done:=true})).cohorts[position]? = some cohort := found
    exact mark_alike marked fun _ => ⟨rfl,rfl,rfl,rfl⟩
  | case7 =>
    rintro ⟨⟩
    exact ⟨rfl,rfl,fun _ cohort found => ⟨cohort,found,rfl,rfl,rfl,rfl⟩⟩
  | _ => rintro ⟨⟩

theorem next_window {pass : Pass} (next : pass.next = .window index windowStart windowEnd) :
    ∃ cohort, pass.cohorts[index]? = some cohort ∧ windowStart = cohort.cursor + 1 := by
  revert next
  fun_cases Pass.next pass with
  | case6 turn _ cohort found =>
    rintro ⟨⟩
    exact ⟨cohort,found,rfl⟩
  | _ => rintro ⟨⟩

-- Every scanned log above the first cursor was passed to a committed window.
def CoveredTo (registry : List Topic) (logsOf : Chain → List FetchedEventLog) (start : World)
    (committed : List Committed) (id : ContractId)
    (old : MonitoredContract) (upto : Nat) : Prop :=
  ∀ log ∈ logsOf old.chain, log.address = Text.lower old.address →
    (∃ topic ∈ scanTopicsUnion registry start.db, log.topics.head? = some topic) →
    old.lastScannedBlock < log.blockNumber → log.blockNumber ≤ upto → ∃ window ∈ committed, id ∈ window.memberIds ∧
      log ∈ window.logs

theorem CoveredTo.mono {id : ContractId}
    (covered : CoveredTo registry logsOf start committed id old upto) (wider : committed ⊆ more) (below : less ≤ upto) :
    CoveredTo registry logsOf start more id old less := by
  intro log onChain atAddress scanned above inside
  obtain ⟨window,listed,member,passed⟩ := covered log onChain atAddress scanned above (Nat.le_trans inside below)
  exact ⟨window,wider listed,member,passed⟩

def CohortKept (registry : List Topic) (logsOf : Chain → List FetchedEventLog) (start : World)
    (committed : List Committed) (cohort : Cohort) : Prop :=
  ∀ id ∈ cohort.memberIds, ∃ old, start.db.contracts id = some old ∧ old.chain = cohort.chain ∧
    Text.lower old.address ∈ cohort.addresses ∧
    CoveredTo registry logsOf start committed id old cohort.cursor

theorem CohortKept.alike (kept : CohortKept registry logsOf start committed cohort)
    (alike : Alike cohort other) : CohortKept registry logsOf start committed other := by
  intro id member
  obtain ⟨old,there,chain,address,covered⟩ := kept id (alike.memberIds ▸ member)
  exact ⟨old,there,chain.trans alike.chain.symm,alike.addresses.symm ▸ address,alike.cursor.symm ▸ covered⟩

structure PassKept (registry : List Topic) (logsOf : Chain → List FetchedEventLog) (start : World)
    (committed : List Committed) (pass : Pass) : Prop where
  topics : scanTopicsUnion registry start.db ⊆ pass.topics
  cohorts : ∀ cohort ∈ pass.cohorts, CohortKept registry logsOf start committed cohort
  work : ∀ work, pass.work = some work → ∃ cohort, pass.cohorts[work.index]? = some cohort ∧
    work.windowStart = cohort.cursor + 1 ∧
    Fetches logsOf cohort pass.topics work.windowStart work.windowEnd work.logs

theorem PassKept.mono (kept : PassKept registry logsOf start committed sweep) (wider : committed ⊆ more) :
    PassKept registry logsOf start more sweep where
  topics := kept.topics
  cohorts cohort inside id member := by
    obtain ⟨old,there,chain,address,covered⟩ := kept.cohorts cohort inside id member
    exact ⟨old,there,chain,address,covered.mono wider (Nat.le_refl _)⟩
  work := kept.work

theorem PassKept.moved (kept : PassKept registry logsOf start committed sweep) (idle : later.work = none)
    (topics : later.topics = sweep.topics)
    (cohorts : ∀ (index : Nat) cohort, later.cohorts[index]? = some cohort → ∃ earlier,
      sweep.cohorts[index]? = some earlier ∧ Alike earlier cohort) :
    PassKept registry logsOf start committed later where
  topics := topics.symm ▸ kept.topics
  cohorts cohort inside := by
    obtain ⟨index,found⟩ := mem_iff_getElem?.mp inside
    obtain ⟨earlier,before,alike⟩ := cohorts index cohort found
    exact (kept.cohorts earlier (mem_of_getElem? before)).alike alike
  work work busy := by
    rw [idle] at busy
    cases busy

structure Kept (registry : List Topic) (logsOf : Chain → List FetchedEventLog) (start w : World) : Prop where
  grows : Grows start.db w.db
  covered : ∀ id old new, start.db.contracts id = some old → w.db.contracts id = some new →
    CoveredTo registry logsOf start w.committed id old new.lastScannedBlock
  passes : ∀ pass ∈ w.passes, PassKept registry logsOf start w.committed pass

section
variable (kept : Kept registry logsOf start w)
include kept

theorem Kept.put (held : PassKept registry logsOf start w.committed sweep) :
    Kept registry logsOf start (w.put position sweep) where
  grows := kept.grows
  covered := kept.covered
  passes other inside := by
    rcases mem_or_eq_of_mem_set inside with old | new
    · exact kept.passes other old
    · exact new ▸ held

theorem Kept.database (grows : Grows w.db db)
    (cursors : ∀ id, (db.contracts id).map (·.lastScannedBlock) = (w.db.contracts id).map (·.lastScannedBlock)) :
    Kept registry logsOf start {w with db:=db} where
  grows := kept.grows.trans grows
  covered id old new before after := by
    obtain ⟨mc,there,_⟩ := grows.known id new after
    have same : new.lastScannedBlock = mc.lastScannedBlock := by
      have both := cursors id
      rw [there,after] at both
      exact Option.some.inj both
    rw [same]
    exact kept.covered id old mc before there
  passes := kept.passes

theorem start_kept {head : Chain → Nat} :
    PassKept registry logsOf start w.committed (startPass registry limits head held w.db) where
  topics := kept.grows.scanTopicsUnion registry
  cohorts cohort inside id member := by
    obtain ⟨mc,row,chain,address,cursor⟩ := mem_cohortsOf (mem_of_mem_filter inside) member
    obtain ⟨_,there,_⟩ := mem_indexRows.mp row
    obtain ⟨old,before,later⟩ := kept.grows.known id mc there
    exact ⟨old,before,later.chain.symm.trans chain,later.address ▸ address,(kept.covered id old mc before there).mono
      (List.Subset.refl _) cursor⟩
  work work busy := by cases busy

end

theorem window_covers (held : PassKept registry logsOf start committed sweep)
    (busy : sweep.work = some work) (found : sweep.cohorts[work.index]? = some cohort) {id : ContractId}
    (member : id ∈ cohort.memberIds) :
    ∃ old, start.db.contracts id = some old ∧ old.chain = cohort.chain ∧ Text.lower old.address ∈ cohort.addresses ∧
      CoveredTo registry logsOf start
      (committed ++ [⟨cohort.memberIds,work.windowStart,work.windowEnd,work.logs⟩]) id old work.windowEnd := by
  obtain ⟨same,there,starts,fetched⟩ := held.work work busy
  rw [found] at there
  cases there
  obtain ⟨old,before,chain,address,covered⟩ := held.cohorts cohort (mem_of_getElem? found) id member
  refine ⟨old,before,chain,address,?_⟩
  intro log onChain atAddress scanned above inside
  by_cases behind : log.blockNumber ≤ cohort.cursor
  · obtain ⟨window,listed,rest⟩ := covered log onChain atAddress scanned above behind
    exact ⟨window,mem_append_left _ listed,rest⟩
  · obtain ⟨topic,union,first⟩ := scanned
    refine ⟨_,mem_append_right _ (mem_singleton_self _),member,?_⟩
    exact fetched log (chain ▸ onChain) (atAddress ▸ address) ⟨topic,held.topics union,first⟩ (by omega) inside

theorem close_kept {position : Nat} (renewed : Bool) (kept : Kept registry logsOf start w)
    (running : w.passes[position]? = some sweep) (busy : sweep.work = some work)
    (found : sweep.cohorts[work.index]? = some cohort) :
    Kept registry logsOf start ({w with
      db:=advanceCursors (processLogs decoders work.byAddress w.db (work.logs.drop work.processed)) cohort.memberIds
        work.windowEnd
      committed:=w.committed ++ [(⟨cohort.memberIds,work.windowStart,work.windowEnd,work.logs⟩ : Committed)]}.put
      position
      (sweep.advance work cohort.chain renewed)) := by
  have held := kept.passes sweep (mem_of_getElem? running)
  have wider : w.committed ⊆ w.committed ++ [⟨cohort.memberIds,work.windowStart,work.windowEnd,work.logs⟩] :=
    subset_append_left _ _
  refine Kept.put ⟨?_,?_,?_⟩ ⟨held.topics,?_,fun _ none => by cases none⟩
  · exact kept.grows.trans ((processLogs_grows _ _ _ _).trans (advanceCursors_grows))
  · intro id old new before after
    dsimp only [advanceCursors] at after ⊢
    have cursor := processLogs_cursor decoders work.byAddress (work.logs.drop work.processed) w.db id
    split at after
    · rename_i member
      obtain ⟨mc,there,same⟩ := Option.map_eq_some_iff.mp after
      rw [there] at cursor
      obtain ⟨row,now,equal⟩ := Option.map_eq_some_iff.mp cursor.symm
      have equal : row.lastScannedBlock = mc.lastScannedBlock := equal
      obtain ⟨first,also,_,_,covers⟩ := window_covers held busy found member
      rw [before] at also
      cases also
      rw [← same]
      intro log onChain atAddress scanned above inside
      rcases Nat.le_total mc.lastScannedBlock work.windowEnd with ahead | behind
      · exact covers log onChain atAddress scanned above (by dsimp only at inside; omega)
      · refine (kept.covered id old row before now).mono wider (Nat.le_refl _) log onChain atAddress scanned above ?_
        dsimp only at inside
        omega
    · rw [after] at cursor
      obtain ⟨row,now,equal⟩ := Option.map_eq_some_iff.mp cursor.symm
      have equal : row.lastScannedBlock = new.lastScannedBlock := equal
      rw [← equal]
      exact (kept.covered id old row before now).mono wider (Nat.le_refl _)
  · exact fun other inside => (kept.passes other inside).mono wider
  · intro other inside id member
    unfold Pass.advance Pass.mark at inside
    obtain ⟨index,there⟩ := mem_iff_getElem?.mp inside
    rw [getElem?_modify] at there
    obtain ⟨earlier,before,same⟩ := Option.map_eq_some_iff.mp there
    split at same
    · rename_i here
      subst here
      rw [found] at before
      cases before
      subst same
      exact window_covers held busy found member
    · subst same
      exact (held.mono wider).cohorts earlier (mem_of_getElem? before) id member

theorem step_kept (kept : Kept registry logsOf start w) (step : Step registry decoders logsOf w later) :
    Kept registry logsOf start later := by
  cases step with
  | begin limits head chains =>
    refine ⟨kept.grows,kept.covered,?_⟩
    intro pass inside
    rcases mem_append.mp inside with old | new
    · exact kept.passes pass old
    · have fresh : PassKept registry logsOf start w.committed (startPass registry limits head chains w.db) :=
        start_kept kept
      exact mem_singleton.mp new ▸ fresh
  | move running idle next =>
    obtain ⟨topics,work,cohorts⟩ := next_moved next
    exact kept.put ((kept.passes _ (mem_of_getElem? running)).moved (work.trans idle) topics cohorts)
  | fetch running idle next found fetched =>
    have held := kept.passes _ (mem_of_getElem? running)
    refine kept.put ⟨held.topics,held.cohorts,?_⟩
    intro work busy
    cases busy
    obtain ⟨cohort,there,starts⟩ := next_window next
    rw [found] at there
    cases there
    exact ⟨_,found,starts,fetched⟩
  | fetchFails running idle next =>
    exact kept.put ((kept.passes _ (mem_of_getElem? running)).moved idle rfl fun _ _ found =>
      mark_alike found fun _ => ⟨rfl,rfl,rfl,rfl⟩)
  | part more running busy =>
    have held := kept.passes _ (mem_of_getElem? running)
    refine Kept.put (kept.database (processLogs_grows _ _ _ _) (processLogs_cursor _ _ _ _))
      ⟨held.topics,held.cohorts,?_⟩
    intro work same
    cases same
    obtain ⟨cohort,rest⟩ := held.work _ busy
    exact ⟨cohort,rest⟩
  | close renewed running busy found => exact close_kept renewed kept running busy found
  | stop position => exact ⟨kept.grows,kept.covered,fun pass inside => kept.passes pass (mem_of_mem_eraseIdx inside)⟩
  | track id spec =>
    refine kept.database (update_grows _ _ fun mc => ⟨rfl,rfl,rfl,Nat.le_refl _,subset_append_left _ _⟩) ?_
    intro other
    unfold Database.update
    dsimp only
    by_cases same : other = id
    · rw [if_pos same,Option.map_map,← same]
      rfl
    · rw [if_neg same]

theorem step_grows (step : Step registry decoders logsOf w later) : Grows w.db later.db := by
  cases step with
  | part more running busy => exact processLogs_grows _ _ _ _
  | close renewed running busy found => exact (processLogs_grows _ _ _ _).trans (advanceCursors_grows)
  | track id spec => exact update_grows _ _ fun mc => ⟨rfl,rfl,rfl,Nat.le_refl _,subset_append_left _ _⟩
  | _ => exact .refl _

theorem step_once (once : Once w.db) (step : Step registry decoders logsOf w later) : Once later.db := by
  cases step with
  | part more running busy => exact processLogs_once once _ _ _
  | close renewed running busy found =>
    have processed := processLogs_once once decoders
    exact ⟨(processed _ _).recorded,(processed _ _).distinct⟩
  | track id spec => exact ⟨once.recorded,once.distinct⟩
  | _ => exact once

theorem runs_grow (runs : Runs registry decoders logsOf w later) : Grows w.db later.db := by
  induction runs with
  | refl => exact .refl _
  | tail _ step ih => exact ih.trans (step_grows step)

theorem runs_kept (unstarted : start.passes = []) (runs : Runs registry decoders logsOf start w) :
    Kept registry logsOf start w := by
  induction runs with
  | refl =>
    refine ⟨.refl _,?_,?_⟩
    · intro id old new before after log _ _ _ above inside
      rw [before] at after
      cases after
      omega
    · intro pass inside
      rw [unstarted] at inside
      cases inside
  | tail _ step ih => exact step_kept ih step

theorem runs_once (once : Once start.db) (runs : Runs registry decoders logsOf start w) : Once w.db := by
  induction runs with
  | refl => exact once
  | tail _ step ih => exact step_once ih step

theorem scanner_misses_and_repeats_nothing {registry : List Topic} {decoders : Decoders}
    {logsOf : Chain → List FetchedEventLog} {start w : World}
    (unstarted : start.passes = []) (unrun : start.db.effects = []) (runs : Runs registry decoders logsOf start w) :
    (∀ id old, start.db.contracts id = some old → ∃ new, w.db.contracts id = some new ∧
      ∀ log ∈ logsOf new.chain, log.address = Text.lower new.address →
      (∃ topic ∈ scanTopicsUnion registry start.db, log.topics.head? = some topic) →
        old.lastScannedBlock < log.blockNumber → log.blockNumber ≤ new.lastScannedBlock →
        ∃ window ∈ w.committed, id ∈ window.memberIds ∧ log ∈ window.logs) ∧
    (∀ later, Runs registry decoders logsOf w later → ∀ id mc, w.db.contracts id = some mc →
      ∃ next, later.db.contracts id = some next ∧ mc.lastScannedBlock ≤ next.lastScannedBlock) ∧ w.db.effects.Nodup :=
        by
  have kept := runs_kept unstarted runs
  have once : Once start.db := by
    refine ⟨fun identity inside => ?_,unrun ▸ nodup_nil⟩
    rw [unrun] at inside
    cases inside
  refine ⟨?_,?_,(runs_once once runs).distinct⟩
  · intro id old before
    obtain ⟨new,after,later⟩ := kept.grows.kept id old before
    refine ⟨new,after,fun log onChain atAddress scanned above inside => ?_⟩
    exact kept.covered id old new before after log (later.chain ▸ onChain)
      (later.address ▸ atAddress) scanned above inside
  · intro later more id mc there
    obtain ⟨next,after,grown⟩ := (runs_grow more).kept id mc there
    exact ⟨next,after,grown.cursor⟩

def Next.moves : Next → Option Pass
  | .moved pass => some pass
  | _ => none

def Next.scans : Next → Option (Nat × Nat × Nat)
  | .window index windowStart windowEnd => some (index,windowStart,windowEnd)
  | _ => none

theorem Next.of_moves {next : Next} (moves : next.moves.isSome = true) : next = .moved (next.moves.getD sweep) := by
  cases next with
  | moved sweep => rfl
  | _ => cases moves

theorem Next.of_scans {next : Next} (scans : next.scans = some (index,windowStart,windowEnd)) :
    next = .window index windowStart windowEnd := by
  cases next with
  | window index windowStart windowEnd =>
    cases scans
    rfl
  | _ => cases scans

theorem pass_runs
    {head : Chain → Nat}
    (quiet : ∀ w, (∀ pass ∈ w.passes, pass.work = none) → kind w)
    (started : startPass registry limits head held db = begun)
    (moves : begun.next = .moved turned) (scans : turned.next = .window index windowStart windowEnd)
    (found : turned.cohorts[index]? = some cohort)
    (fetched : Fetches logsOf cohort turned.topics windowStart windowEnd logs)
    (busy : kind ⟨db,[{turned with work:=some ⟨index,windowStart,windowEnd,hydrate db cohort.memberIds logs,logs,0⟩}],
      committed⟩) :
    RunsWithin registry decoders logsOf kind ⟨db,[],committed⟩
      ⟨advanceCursors (processLogs decoders (hydrate db cohort.memberIds logs) db logs) cohort.memberIds windowEnd,[],
        committed ++ [⟨cohort.memberIds,windowStart,windowEnd,logs⟩]⟩ := by
  subst started
  have idle : turned.work = none := (next_moved moves).2.1
  have begins : Step registry decoders logsOf ⟨db,[],committed⟩
    ⟨db,[startPass registry limits head held db],committed⟩ := .begin limits head held
  have picks : Step registry decoders logsOf ⟨db,[startPass registry limits head held db],committed⟩
    ⟨db,[turned],committed⟩ :=
    @Step.move _ _ _ ⟨db,[startPass registry limits head held db],committed⟩ 0 _ _ rfl rfl moves
  have fetches := @Step.fetch registry decoders logsOf
    ⟨db,[turned],committed⟩ 0 _ _ _ _ _ _ rfl idle scans found fetched
  have closes := @Step.close registry decoders logsOf
    ⟨db,[{turned with work:=some ⟨index,windowStart,windowEnd,hydrate db cohort.memberIds logs,logs,0⟩}],
      committed⟩ 0 _ _ _ true rfl rfl found
  have one (pass : Pass) (work : pass.work = none) : kind ⟨db,[pass],committed⟩ :=
    quiet _ fun other inside => (mem_singleton.mp inside).symm ▸ work
  refine .tail
    (.tail (.tail (.tail (.tail .refl ⟨begins,quiet _ fun _ none => by cases none⟩) ⟨picks,one _ rfl⟩)
      ⟨fetches,one _ idle⟩) ⟨closes,busy⟩)
    ⟨.stop 0,quiet _ fun other inside => ?_⟩
  rw [mem_singleton.mp inside]
  rfl

theorem RunsWithin.runs (runs : RunsWithin registry decoders logsOf kind start w) :
    Runs registry decoders logsOf start w := by
  induction runs with
  | refl => exact .refl
  | tail _ step ih => exact .tail ih step.1

def account (digit : Char) : Address := String.ofList ('0' :: 'x' :: List.replicate 40 digit)

def ownershipTransferred : Topic := "0x8be0079c531659141344cd1fd0a4f28419497f9722a3daafe3b4186f6b6457e0"

def ownerUpdated : Topic := "0x8292fce18fa69edf4db7b94ea2e58241df0ae57f97e0a6c9b29067028bf92d76"

-- Both events carry the old owner and then the new one, indexed.
def ownerDecoders : Decoders where
  parseAnyLog log :=
    if log.topics.head? = some ownershipTransferred then
      some {eventType:="ownership_transferred",effectTags:=some {writes:=["owner"]},
            fields:=[("new_owner",.text (log.topics.getD 2 ""))]}
    else none
  parseTrackedLog log spec := some
    {eventType:=spec.eventType,effectTags:=spec.effectTags,inputs:=some spec.inputs,
     fields:=[("new_owner",.text (log.topics.getD 2 ""))]}
  legacyTier _ _ := .activity

def rotation (topic : Topic) (block : Nat) (owner : Address) : FetchedEventLog :=
  {address:=account '1',topics:=[topic,account '0',owner],blockNumber:=block,txHash:=toString block,logIndex:=0}

def vaultLogs (_ : Chain) : List FetchedEventLog :=
  [rotation ownerUpdated 50 (account 'a'),rotation ownershipTransferred 150 (account 'b')]

def vaults : World where
  db := {
    ids := [1,2]
    contracts := fun id => if id = 1 ∨ id = 2 then
      some {address:=account (if id = 1 then '1' else '2'),chain:="ethereum",lastScannedBlock:=0} else none}

def singly : Limits where
  addressBatch := 1
  maxWindowsCohort := 25
  maxWindowsPass := 50
  runawayWindows := 1
  maxGetlogsRange _ := 1000
  confirmationDepth _ := 0
  runawayLag _ := 0

def begun (limits : Limits) (db : Database) : Pass :=
  startPass [ownershipTransferred] limits (fun _ => 200) ["ethereum"] db

def turned (limits : Limits) (db : Database) : Pass := (begun limits db).next.moves.getD (begun limits db)

def Cohort.key (cohort : Cohort) : Chain × List ContractId × List Address :=
  (cohort.chain,cohort.memberIds,cohort.addresses)

theorem begun_runs (quiet : ∀ w, (∀ pass ∈ w.passes, pass.work = none) → kind w)
    (moves : (begun limits db).next.moves.isSome = true) (scans : (turned limits db).next.scans = some (0,1,200))
    (picked : (turned limits db).cohorts[0]?.map Cohort.key = some ("ethereum",members,addresses))
    (fetched : ∀ log ∈ vaultLogs "ethereum", log.address ∈ addresses →
      (∃ topic ∈ (turned limits db).topics, log.topics.head? = some topic) →
        1 ≤ log.blockNumber → log.blockNumber ≤ 200 → log ∈ logs)
    (busy : kind ⟨db,[{turned limits db with work:=some ⟨0,1,200,hydrate db members logs,logs,0⟩}],committed⟩) :
    RunsWithin [ownershipTransferred] ownerDecoders vaultLogs kind ⟨db,[],committed⟩
      ⟨advanceCursors (processLogs ownerDecoders (hydrate db members logs) db logs) members 200,
        [],committed ++ [⟨members,1,200,logs⟩]⟩ := by
  obtain ⟨cohort,found,is⟩ := Option.map_eq_some_iff.mp picked
  have member : cohort.memberIds = members := congrArg (·.2.1) is
  have address : cohort.addresses = addresses := congrArg (·.2.2) is
  have turn : (begun limits db).next = .moved (turned limits db) := Next.of_moves moves
  subst member address
  refine pass_runs quiet rfl turn (Next.of_scans scans) found ?_ busy
  exact fetched

def scanned : World where
  db := advanceCursors
    (processLogs ownerDecoders (hydrate vaults.db [1] [rotation ownershipTransferred 150 (account 'b')]) vaults.db
    [rotation ownershipTransferred 150 (account 'b')]) [1] 200
  committed := [⟨[1],1,200,[rotation ownershipTransferred 150 (account 'b')]⟩]

theorem vaults_scanned (quiet : ∀ w, (∀ pass ∈ w.passes, pass.work = none) → kind w)
    (busy : ∀ pass : Pass, pass.work.map (·.logs) = some [rotation ownershipTransferred 150 (account 'b')] →
      kind ⟨vaults.db,[pass],[]⟩) :
    RunsWithin [ownershipTransferred] ownerDecoders vaultLogs kind vaults scanned := by
  have picked : (turned singly vaults.db).cohorts[0]?.map Cohort.key = some ("ethereum",[1],[account '1']) :=
    by decide +kernel
  exact begun_runs quiet (by decide +kernel) (by decide +kernel) picked (by decide +kernel) (busy _ rfl)

theorem vaults_ran : RunsWithin [ownershipTransferred] ownerDecoders vaultLogs (fun _ => True) vaults scanned :=
  vaults_scanned (fun _ _ => trivial) fun _ _ => trivial

theorem scanned_vault_complete : (scanned.db.contracts 1).map (·.lastScannedBlock) = some 200 ∧
    scanned.db.effects.length = 1 ∧
    ∃ new, scanned.db.contracts 1 = some new ∧ ∀ log ∈ vaultLogs new.chain, log.address = Text.lower new.address →
      (∃ topic ∈ scanTopicsUnion [ownershipTransferred] vaults.db, log.topics.head? = some topic) →
      0 < log.blockNumber → log.blockNumber ≤ new.lastScannedBlock →
      ∃ window ∈ scanned.committed, 1 ∈ window.memberIds ∧ log ∈ window.logs :=
  ⟨by decide +kernel,by decide +kernel,
    (scanner_misses_and_repeats_nothing rfl rfl (RunsWithin.runs vaults_ran)).1 1 _ rfl⟩

end Psat.Monitoring
