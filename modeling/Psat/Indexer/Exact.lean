import Psat.General.Outcome
import Psat.General.Paired
import Psat.Indexer.Visit

namespace Psat.Indexer
open Psat.General List

def rewindPoint (key : Key) : Event → Option Nat
  | .rewound k toBlock => if k = key then some toBlock else none
  | .stood _ _ _ => none

def rewindPoints (key : Key) (history : List Event) : List Nat := history.filterMap (rewindPoint key)

-- The lowest position a cursor ever held: its seed, or a rewind below it.
def lowest (cursor : IndexedEventCursor) (history : List Event) : Nat :=
  (rewindPoints cursor.key history).foldl min cursor.enrolledSeedBlock

-- Whether a key's cursor has stood at a confirmed target since its last rewind.
def standStep (key : Key) (reached : Bool) : Event → Bool
  | .rewound k _ => if k = key then false else reached
  | .stood k last target => if k = key then reached || decide (target ≤ last) else reached

def reachedTarget (key : Key) (history : List Event) : Bool := history.foldl (standStep key) false

-- The store holds each cursor's logs, exactly and once.
structure RowsOk (chain : Chain) (history : List Event) (store : Store) : Prop where
  unique : (store.cursors.map IndexedEventCursor.key).Nodup
  owned : ∀ log ∈ store.logs, ∃ cursor ∈ store.cursors, cursor.key = log.key
  once : store.logs.Nodup
  known : ∀ event ∈ history, ∃ cursor ∈ store.cursors, cursor.key = event.key
  floor : ∀ cursor ∈ store.cursors, lowest cursor history ≤ cursor.lastIndexedBlock
  exact : ∀ cursor ∈ store.cursors, ∀ entry, ⟨cursor.key,entry⟩ ∈ store.logs ↔
    chain.logs cursor.key entry ∧ lowest cursor history < entry.blockNumber ∧
      entry.blockNumber ≤ cursor.lastIndexedBlock

structure StoreOk (chain : Chain) (history : List Event) (store : Store) : Prop extends RowsOk chain history store where
  reached : ∀ cursor ∈ store.cursors, cursor.backfillComplete = true → reachedTarget cursor.key history = true

section Folds
variable {cursors : List IndexedEventCursor}

theorem standStep_other (other : event.key ≠ key) : standStep key reached event = reached := by
  cases event with
  | rewound k toBlock => simp only [Event.key] at other; simp [standStep,other]
  | stood k last target => simp only [Event.key] at other; simp [standStep,other]

theorem rewindPoint_other (other : event.key ≠ key) : rewindPoint key event = none := by
  cases event with
  | rewound k toBlock => simp only [Event.key] at other; simp [rewindPoint,other]
  | stood k last target => rfl

theorem foldl_standStep_others (reached : Bool) (events : List Event) (others : ∀ event ∈ events, event.key ≠ key) :
    events.foldl (standStep key) reached = reached := by
  induction events generalizing reached with
  | nil => rfl
  | cons event rest ih =>
    rw [foldl_cons,standStep_other (others event (by simp))]
    exact ih reached (forall_mem_cons.mp others).2

theorem rewindPoints_others (events : List Event) (others : ∀ event ∈ events, event.key ≠ key) :
    rewindPoints key events = [] := by
  rw [rewindPoints,filterMap_eq_nil_iff]
  exact fun event member => rewindPoint_other (others event member)

section
variable {f : IndexedEventCursor → Option Event} (own : ∀ c e, f c = some e → e.key = c.key)
    (unique : (cursors.map IndexedEventCursor.key).Nodup) (member : cursor ∈ cursors)
include own unique member

-- A commit has at most one event of each cursor, under its own key.
theorem own_events :
    ∃ before after, cursors.filterMap f = before ++ (f cursor).toList ++ after ∧
      (∀ event ∈ before, event.key ≠ cursor.key) ∧ (∀ event ∈ after, event.key ≠ cursor.key) := by
  obtain ⟨earlier,later,rfl⟩ := append_of_mem member
  rw [map_append,map_cons,nodup_append] at unique
  obtain ⟨_,nodup,apart⟩ := unique
  have fresh := (nodup_cons.mp nodup).1
  refine ⟨earlier.filterMap f,later.filterMap f,?_,?_,?_⟩
  · rw [filterMap_append,filterMap_cons]
    cases f cursor <;> simp
  · intro event inside same
    obtain ⟨other,present,produced⟩ := mem_filterMap.mp inside
    rw [own other event produced] at same
    exact apart other.key (mem_map_of_mem present) cursor.key (by simp) same
  · intro event inside same
    obtain ⟨other,present,produced⟩ := mem_filterMap.mp inside
    rw [own other event produced] at same
    exact fresh (same ▸ mem_map_of_mem present)

theorem rewindPoints_own :
    rewindPoints cursor.key (cursors.filterMap f) = ((f cursor).bind (rewindPoint cursor.key)).toList := by
  obtain ⟨before,after,shape,first,last⟩ := own_events own unique member
  rw [shape]
  have quiet := rewindPoints_others before first
  have silent := rewindPoints_others after last
  simp only [rewindPoints,filterMap_append] at quiet silent ⊢
  rw [quiet,silent]
  cases f cursor with
  | none => rfl
  | some event => cases point : rewindPoint cursor.key event <;> simp [point]

theorem standStep_own
    (reached : Bool) :
    (cursors.filterMap f).foldl (standStep cursor.key) reached = (f cursor).elim reached
    (standStep cursor.key reached) := by
  obtain ⟨before,after,shape,first,last⟩ := own_events own unique member
  rw [shape,foldl_append,foldl_append,foldl_standStep_others _ _ first,foldl_standStep_others _ _ last]
  cases f cursor <;> rfl

end

end Folds

theorem rewindEvent_own (rewinds : List (String × Rewind)) (cursor : IndexedEventCursor) (event : Event)
    (made : rewindEvent rewinds cursor = some event) : event.key = cursor.key := by
  unfold rewindEvent at made
  split at made
  · split at made
    · cases made
      rfl
    · cases made
  · cases made

section
variable (rewinds : List (String × Rewind)) (cursor : IndexedEventCursor)

theorem rewindCursor_cases :
    (∃ rewind, List.lookup cursor.key.address rewinds = some rewind ∧ rewind.toBlock < cursor.lastIndexedBlock ∧
      rewindEvent rewinds cursor = some (.rewound cursor.key rewind.toBlock) ∧
      rewindCursor rewinds cursor = {cursor with
        lastIndexedBlock:=rewind.toBlock
        lastIndexedBlockHash:=rewind.blockHash
        backfillComplete:=false}) ∨
    (rewindEvent rewinds cursor = none ∧ rewindCursor rewinds cursor = cursor ∧
      ∀ rewind, List.lookup cursor.key.address rewinds = some rewind → cursor.lastIndexedBlock ≤ rewind.toBlock) := by
  unfold rewindEvent rewindCursor
  cases found : List.lookup cursor.key.address rewinds with
  | none => exact .inr ⟨rfl,rfl,by simp⟩
  | some rewind =>
    by_cases below : rewind.toBlock < cursor.lastIndexedBlock
    · exact .inl ⟨rewind,rfl,below,by simp [below],by simp [below]⟩
    · refine .inr ⟨by simp [below],by simp [below],?_⟩
      intro other same
      cases same
      omega

@[simp] theorem rewindCursor_key :
    (rewindCursor rewinds cursor).key = cursor.key := by
  rcases rewindCursor_cases rewinds cursor with ⟨_,_,_,_,shape⟩ | ⟨_,shape,_⟩ <;> rw [shape]

@[simp] theorem rewindCursor_seed :
    (rewindCursor rewinds cursor).enrolledSeedBlock = cursor.enrolledSeedBlock := by
  rcases rewindCursor_cases rewinds cursor with ⟨_,_,_,_,shape⟩ | ⟨_,shape,_⟩ <;> rw [shape]

theorem rewindCursor_last :
    (rewindCursor rewinds cursor).lastIndexedBlock = rewoundTo rewinds cursor.position := by
  unfold rewoundTo
  rcases rewindCursor_cases rewinds cursor with ⟨rewind,found,below,_,shape⟩ | ⟨_,shape,kept⟩
  · rw [shape]
    simp only [IndexedEventCursor.position,found]
    omega
  · rw [shape]
    simp only [IndexedEventCursor.position]
    split
    · rename_i rewind found
      have := kept rewind found
      omega
    · rfl

end

theorem lowest_append : lowest cursor (history ++ events) = (rewindPoints cursor.key events).foldl min
    (lowest cursor history) := by
  simp [lowest,rewindPoints,filterMap_append,foldl_append]

theorem reachedTarget_append : reachedTarget key (history ++ events) = events.foldl (standStep key)
    (reachedTarget key history) := by
  simp [reachedTarget]

theorem lowest_rewindCursor : lowest (rewindCursor rewinds cursor) history = lowest cursor history := by
  simp [lowest]

theorem applyRewinds_ok (ok : StoreOk chain history store) (rewinds : List (String × Rewind)) :
    StoreOk chain (history ++ store.cursors.filterMap (rewindEvent rewinds)) (applyRewinds rewinds store) := by
  have points : ∀ cursor ∈ store.cursors, rewindPoints cursor.key (store.cursors.filterMap (rewindEvent rewinds)) =
    ((rewindEvent rewinds cursor).bind (rewindPoint cursor.key)).toList := fun cursor member =>
    rewindPoints_own (rewindEvent_own rewinds) ok.unique member
  have stands : ∀ cursor ∈ store.cursors, ∀ reached,
    (store.cursors.filterMap (rewindEvent rewinds)).foldl (standStep cursor.key) reached =
        (rewindEvent rewinds cursor).elim reached (standStep cursor.key reached) := fun cursor member =>
    standStep_own (rewindEvent_own rewinds) ok.unique member
  refine ⟨⟨?_,?_,ok.once.filter _,?_,?_,?_⟩,?_⟩
  · have keys : (applyRewinds rewinds store).cursors.map IndexedEventCursor.key =
      store.cursors.map IndexedEventCursor.key := by
      simp [applyRewinds,Function.comp_def]
    rw [keys]
    exact ok.unique
  · intro log member
    obtain ⟨cursor,present,same⟩ := ok.owned log (mem_of_mem_filter member)
    exact ⟨rewindCursor rewinds cursor,mem_map_of_mem present,by simp [same]⟩
  · intro event member
    rcases mem_append.mp member with old | new
    · obtain ⟨cursor,present,same⟩ := ok.known event old
      exact ⟨rewindCursor rewinds cursor,mem_map_of_mem present,by simp [same]⟩
    · obtain ⟨cursor,present,made⟩ := mem_filterMap.mp new
      exact ⟨rewindCursor rewinds cursor,mem_map_of_mem present,by
        simp [rewindEvent_own rewinds cursor event made]⟩
  · intro cursor' member
    obtain ⟨cursor,present,rfl⟩ := mem_map.mp member
    have low := ok.floor cursor present
    rw [lowest_rewindCursor,lowest_append,points cursor present]
    rcases rewindCursor_cases rewinds cursor with ⟨rewind,_,below,event,shape⟩ | ⟨event,shape,_⟩
    · rw [event,shape]
      simp [rewindPoint]
    · rw [event,shape]
      simpa using low
  · intro cursor' member entry
    obtain ⟨cursor,present,rfl⟩ := mem_map.mp member
    have rows := ok.exact cursor present entry
    rw [lowest_rewindCursor,lowest_append,points cursor present,rewindCursor_key]
    simp only [applyRewinds,mem_filter,rewindKeeps]
    rw [rows]
    rcases rewindCursor_cases rewinds cursor with ⟨rewind,found,below,event,shape⟩ | ⟨event,shape,kept⟩
    · rw [event,shape,found]
      simp only [rewindPoint,Option.bind_some,↓reduceIte,Option.toList_some,foldl_cons,foldl_nil,
        decide_eq_true_eq]
      constructor
      · rintro ⟨⟨logged,above,_⟩,within⟩
        exact ⟨logged,by omega,within⟩
      · rintro ⟨logged,above,within⟩
        exact ⟨⟨logged,by omega,by omega⟩,within⟩
    · rw [event,shape]
      constructor
      · exact fun both => both.1
      · intro logged
        refine ⟨logged,?_⟩
        cases found : List.lookup cursor.key.address rewinds with
        | none => rfl
        | some rewind =>
          have := kept rewind found
          simp only [decide_eq_true_eq]
          omega
  · intro cursor' member complete
    obtain ⟨cursor,present,rfl⟩ := mem_map.mp member
    rw [rewindCursor_key,reachedTarget_append,stands cursor present]
    rcases rewindCursor_cases rewinds cursor with ⟨rewind,_,_,_,shape⟩ | ⟨event,shape,_⟩
    · rw [shape] at complete
      exact absurd complete (by simp)
    · rw [shape] at complete
      rw [event]
      exact ok.reached cursor present complete

def newLogs (write : PrefixWrite) (cursor : IndexedEventCursor) : List IndexedEventLog :=
  if cursor.key.address ∈ write.addresses ∧ cursor.lastIndexedBlock < write.prefixEnd then write.memberLogs cursor
    else []

structure Wrote (write : PrefixWrite) (cursor cursor' : IndexedEventCursor) : Prop where
  key : cursor'.key = cursor.key
  seed : cursor'.enrolledSeedBlock = cursor.enrolledSeedBlock
  outside : cursor.key.address ∉ write.addresses → cursor' = cursor
  last : cursor.key.address ∈ write.addresses →
    cursor'.lastIndexedBlock = max cursor.lastIndexedBlock write.prefixEnd
  topic : cursor.key.address ∈ write.addresses → cursor.lastIndexedBlock < write.prefixEnd →
    cursor.key.topic0 ∈ write.topics
  complete : cursor'.backfillComplete = true →
    cursor.backfillComplete = true ∨ cursor.key.address ∈ write.addresses ∧ write.target ≤ cursor'.lastIndexedBlock

theorem settleCursor_cases (ran : settleCursor write cursor = .ok settled) :
    settled.key = cursor.key ∧ settled.enrolledSeedBlock = cursor.enrolledSeedBlock ∧
    settled.lastIndexedBlock = cursor.lastIndexedBlock ∧
      (settled.backfillComplete = true → cursor.backfillComplete = true ∨ write.target ≤ cursor.lastIndexedBlock) := by
  unfold settleCursor at ran
  split at ran
  · rename_i there
    split at ran
    · cases ran
      exact ⟨rfl,rfl,rfl,fun _ => .inr there⟩
    · obtain ⟨hash,_,made⟩ := ok_bind.mp ran
      cases made
      exact ⟨rfl,rfl,rfl,fun _ => .inr there⟩
  · cases ran
    exact ⟨rfl,rfl,rfl,.inl⟩

theorem advanceCursor_cases (ran : advanceCursor write cursor = .ok (moved,memberLogs)) :
    moved.key = cursor.key ∧ moved.enrolledSeedBlock = cursor.enrolledSeedBlock ∧
    moved.backfillComplete = cursor.backfillComplete ∧
      moved.lastIndexedBlock = max cursor.lastIndexedBlock write.prefixEnd ∧
      (cursor.lastIndexedBlock < write.prefixEnd → cursor.key.topic0 ∈ write.topics) ∧
      memberLogs = if cursor.lastIndexedBlock < write.prefixEnd then write.memberLogs cursor else [] := by
  unfold advanceCursor at ran
  split at ran
  · rename_i behind
    split at ran
    · rename_i wanted
      cases ran
      exact ⟨rfl,rfl,rfl,by simp only; omega,fun _ => wanted,by simp [behind]⟩
    · cases ran
  · rename_i there
    cases ran
    exact ⟨rfl,rfl,rfl,by omega,fun behind => absurd behind there,by simp [there]⟩

theorem writeCursors_wrote (ran : writeCursors write logs cursors = .ok written) : List.Forall₂
    (Wrote write) cursors written.cursors ∧
    written.logs = bulkInsertLogs logs (cursors.flatMap (newLogs write)) := by
  induction cursors generalizing logs written with
  | nil =>
    cases ran
    exact ⟨.nil,rfl⟩
  | cons cursor rest ih =>
    unfold writeCursors at ran
    split at ran
    · rename_i inside
      obtain ⟨⟨moved,memberLogs⟩,advanced,ran⟩ := ok_bind.mp ran
      obtain ⟨settled,settles,ran⟩ := ok_bind.mp ran
      obtain ⟨others,later,ran⟩ := ok_bind.mp ran
      cases ran
      obtain ⟨tail,stored⟩ := ih later
      obtain ⟨movedKey,movedSeed,movedComplete,movedLast,wanted,rows⟩ := advanceCursor_cases advanced
      obtain ⟨sameKey,sameSeed,sameLast,completes⟩ := settleCursor_cases settles
      refine ⟨.cons ⟨sameKey.trans movedKey,sameSeed.trans movedSeed,fun out => absurd inside out,
        fun _ => sameLast.trans movedLast,fun _ => wanted,fun complete => ?_⟩ tail,?_⟩
      · rw [movedComplete,← sameLast] at completes
        rcases completes complete with old | there
        · exact .inl old
        · exact .inr ⟨inside,there⟩
      · rw [stored,rows]
        simp [newLogs,inside,bulkInsertLogs]
    · rename_i outside
      obtain ⟨others,later,ran⟩ := ok_bind.mp ran
      cases ran
      obtain ⟨tail,stored⟩ := ih later
      refine ⟨.cons ⟨rfl,rfl,fun _ => rfl,fun inside => absurd inside outside,fun inside => absurd inside outside,
        .inl⟩ tail,?_⟩
      rw [stored]
      simp [newLogs,outside]

theorem sameIdentity_iff (a b : IndexedEventLog) : sameIdentity a b = true ↔
    a.key = b.key ∧ a.entry.txHash = b.entry.txHash ∧ a.entry.logIndex = b.entry.logIndex := by
  simp [sameIdentity,and_assoc]

def OnChain (chain : Chain) (log : IndexedEventLog) : Prop := chain.logs log.key log.entry

theorem OnChain.eq_of_sameIdentity (first : OnChain chain a) (second : OnChain chain b)
    (same : sameIdentity a b = true) : a = b := by
  obtain ⟨key,hash,index⟩ := (sameIdentity_iff a b).mp same
  have entry := (chain.identified first.1 second.1 hash index).2
  cases a
  simp_all

theorem mem_insertLog (stored : ∀ log ∈ logs, OnChain chain log) (new : OnChain chain log) :
    other ∈ insertLog logs log ↔ other ∈ logs ∨ other = log := by
  unfold insertLog
  split
  · rename_i conflict
    obtain ⟨twin,present,same⟩ := any_eq_true.mp conflict
    have equal : log = twin := new.eq_of_sameIdentity (stored twin present) same
    constructor
    · exact .inl
    · rintro (old | rfl)
      · exact old
      · rw [equal]
        exact present
  · simp

theorem insertLog_nodup (once : logs.Nodup) : (insertLog logs log).Nodup := by
  unfold insertLog
  split
  · exact once
  · rename_i free
    have absent : log ∉ logs := by
      intro present
      exact free (any_eq_true.mpr ⟨log,present,(sameIdentity_iff log log).mpr ⟨rfl,rfl,rfl⟩⟩)
    rw [nodup_append]
    refine ⟨once,by simp,fun a present b single equal => ?_⟩
    rw [mem_singleton] at single
    rw [equal,single] at present
    exact absent present

theorem mem_bulkInsertLogs (stored : ∀ log ∈ logs, OnChain chain log) (new : ∀ log ∈ more, OnChain chain log) :
    other ∈ bulkInsertLogs logs more ↔ other ∈ logs ∨ other ∈ more := by
  unfold bulkInsertLogs
  induction more generalizing logs with
  | nil => simp
  | cons log rest ih =>
    have here := new log (by simp)
    have grown : ∀ later ∈ insertLog logs log, OnChain chain later := by
      intro later member
      rcases (mem_insertLog stored here).mp member with old | rfl
      · exact stored later old
      · exact here
    rw [foldl_cons,ih grown (forall_mem_cons.mp new).2,
      mem_insertLog stored here,mem_cons,or_assoc]

theorem bulkInsertLogs_nodup (once : logs.Nodup) : (bulkInsertLogs logs more).Nodup := by
  induction more generalizing logs with
  | nil => exact once
  | cons log rest ih => exact ih (insertLog_nodup once)

theorem wrote_keys (all : List.Forall₂ (Wrote write) cursors written) :
    written.map IndexedEventCursor.key = cursors.map IndexedEventCursor.key := by
  induction all with
  | nil => rfl
  | cons one _ ih => simp [one.key,ih]

def stoodEvent (addresses : List String) (target : Nat) (cursor : IndexedEventCursor) : Option Event :=
  if cursor.key.address ∈ addresses then some (.stood cursor.key cursor.lastIndexedBlock target) else none

theorem stoodEvents_eq (v : Visit) (store : Store) :
    v.stoodEvents store = store.cursors.filterMap (stoodEvent v.plan.addresses v.target) := by
  unfold Visit.stoodEvents Store.group
  induction store.cursors with
  | nil => rfl
  | cons cursor rest ih =>
    by_cases inside : cursor.key.address ∈ v.plan.addresses <;> simp [stoodEvent,inside,ih]

theorem stoodEvent_own (addresses : List String) (target : Nat) (cursor : IndexedEventCursor) (event : Event)
    (made : stoodEvent addresses target cursor = some event) : event.key = cursor.key := by
  unfold stoodEvent at made
  split at made
  · cases made
    rfl
  · cases made

section Stood
variable {store : Store}

theorem lowest_stood (unique : (store.cursors.map IndexedEventCursor.key).Nodup) (member : cursor ∈ store.cursors) :
    lowest cursor (history ++ store.cursors.filterMap (stoodEvent addresses target)) = lowest cursor history := by
  rw [lowest_append,rewindPoints_own (stoodEvent_own addresses target) unique member,stoodEvent]
  split <;> rfl

theorem RowsOk.stood (ok : RowsOk chain history store) :
    RowsOk chain (history ++ store.cursors.filterMap (stoodEvent addresses target)) store := by
  refine ⟨ok.unique,ok.owned,ok.once,?_,?_,?_⟩
  · intro event member
    rcases mem_append.mp member with old | new
    · exact ok.known event old
    · obtain ⟨cursor,present,made⟩ := mem_filterMap.mp new
      exact ⟨cursor,present,(stoodEvent_own addresses target cursor event made).symm⟩
  · intro cursor member
    rw [lowest_stood ok.unique member]
    exact ok.floor cursor member
  · intro cursor member
    rw [lowest_stood ok.unique member]
    exact ok.exact cursor member

theorem reachedTarget_stood (unique : (store.cursors.map IndexedEventCursor.key).Nodup)
    (member : cursor ∈ store.cursors)
    (there : reachedTarget cursor.key history = true ∨ cursor.key.address ∈ addresses ∧
      target ≤ cursor.lastIndexedBlock) :
    reachedTarget cursor.key (history ++ store.cursors.filterMap (stoodEvent addresses target)) = true := by
  rw [reachedTarget_append,standStep_own (stoodEvent_own addresses target) unique member,stoodEvent]
  rcases there with before | ⟨inside,now⟩
  · rw [before]
    split <;> simp [standStep]
  · simp [standStep,inside,now]

end Stood

-- For every cursor a prefix advances, all and only its logs up to the prefix's end.
structure Brings (chain : Chain) (write : PrefixWrite) (cursors : List IndexedEventCursor) : Prop where
  onChain : ∀ log ∈ write.buckets, OnChain chain log
  all : ∀ cursor ∈ cursors, cursor.key.address ∈ write.addresses → cursor.key.topic0 ∈ write.topics →
    ∀ entry, cursor.lastIndexedBlock < entry.blockNumber →
      ((⟨cursor.key,entry⟩ : IndexedEventLog) ∈ write.buckets ↔
          chain.logs cursor.key entry ∧ entry.blockNumber ≤ write.prefixEnd)

section Write
variable {cursors : List IndexedEventCursor}

theorem mem_newLogs (unique : (cursors.map IndexedEventCursor.key).Nodup) (member : cursor ∈ cursors) (entry : Entry) :
    (⟨cursor.key,entry⟩ : IndexedEventLog) ∈ cursors.flatMap (newLogs write) ↔
      cursor.key.address ∈ write.addresses ∧ cursor.lastIndexedBlock < write.prefixEnd ∧
        (⟨cursor.key,entry⟩ : IndexedEventLog) ∈ write.buckets ∧ cursor.lastIndexedBlock < entry.blockNumber := by
  rw [mem_flatMap]
  constructor
  · rintro ⟨other,present,inside⟩
    unfold newLogs at inside
    split at inside
    · rename_i advances
      simp only [PrefixWrite.memberLogs,mem_filter,Bool.and_eq_true,beq_iff_eq,decide_eq_true_eq] at inside
      obtain ⟨bucket,same,above⟩ := inside
      have equal : other = cursor := inj_on_of_nodup_map unique present member same.symm
      subst equal
      exact ⟨advances.1,advances.2,bucket,above⟩
    · simp at inside
  · rintro ⟨inside,behind,bucket,above⟩
    refine ⟨cursor,member,?_⟩
    simp [newLogs,inside,behind,PrefixWrite.memberLogs,bucket,above]

theorem newLogs_onChain (brings : Brings chain write cursors) (log : IndexedEventLog)
    (member : log ∈ cursors.flatMap (newLogs write)) : OnChain chain log := by
  obtain ⟨cursor,_,inside⟩ := mem_flatMap.mp member
  unfold newLogs at inside
  split at inside
  · exact brings.onChain log (mem_of_mem_filter inside)
  · simp at inside

theorem RowsOk.onChain (ok : RowsOk chain history store) (log : IndexedEventLog) (member : log ∈ store.logs) :
    OnChain chain log := by
  obtain ⟨cursor,present,same⟩ := ok.owned log member
  have logged := (ok.exact cursor present log.entry).mp (by rw [same]; exact member)
  rw [same] at logged
  exact logged.1

theorem lowest_wrote (wrote : Wrote write cursor cursor') (history : List Event) :
    lowest cursor' history = lowest cursor history := by
  simp [lowest,wrote.key,wrote.seed]

theorem RowsOk.advance (ok : RowsOk chain history store) (brings : Brings chain write store.cursors)
    (ran : writeCursors write store.logs store.cursors = .ok written) : RowsOk chain history written := by
  obtain ⟨all,stored⟩ := writeCursors_wrote ran
  have rows : ∀ log, log ∈ written.logs ↔ log ∈ store.logs ∨ log ∈ store.cursors.flatMap (newLogs write) := by
    intro log
    rw [stored]
    exact mem_bulkInsertLogs ok.onChain (newLogs_onChain brings)
  refine ⟨?_,?_,?_,?_,?_,?_⟩
  · rw [wrote_keys all]
    exact ok.unique
  · intro log member
    have owner : ∃ cursor ∈ store.cursors, cursor.key = log.key := by
      rcases (rows log).mp member with old | new
      · exact ok.owned log old
      · obtain ⟨cursor,present,inside⟩ := mem_flatMap.mp new
        refine ⟨cursor,present,?_⟩
        unfold newLogs at inside
        split at inside
        · simp only [PrefixWrite.memberLogs,mem_filter,Bool.and_eq_true,beq_iff_eq] at inside
          exact inside.2.1.symm
        · simp at inside
    obtain ⟨cursor,present,same⟩ := owner
    obtain ⟨cursor',present',wrote⟩ := Paired.left_partner all present
    exact ⟨cursor',present',wrote.key.trans same⟩
  · rw [stored]
    exact bulkInsertLogs_nodup ok.once
  · intro event member
    obtain ⟨cursor,present,same⟩ := ok.known event member
    obtain ⟨cursor',present',wrote⟩ := Paired.left_partner all present
    exact ⟨cursor',present',wrote.key.trans same⟩
  · intro cursor' member
    obtain ⟨cursor,present,wrote⟩ := Paired.right_partner all member
    have low := ok.floor cursor present
    rw [lowest_wrote wrote]
    by_cases inside : cursor.key.address ∈ write.addresses
    · have := wrote.last inside
      omega
    · rw [wrote.outside inside]
      exact low
  · intro cursor' member entry
    obtain ⟨cursor,present,wrote⟩ := Paired.right_partner all member
    have low := ok.floor cursor present
    rw [lowest_wrote wrote,wrote.key,rows,ok.exact cursor present entry,mem_newLogs ok.unique present entry]
    by_cases inside : cursor.key.address ∈ write.addresses
    · have last := wrote.last inside
      rw [last]
      by_cases behind : cursor.lastIndexedBlock < write.prefixEnd
      · -- The old rows end where the new ones begin.
        have brought := brings.all cursor present inside (wrote.topic inside behind) entry
        constructor
        · rintro (⟨logged,above,upto⟩ | ⟨_,_,bucket,above⟩)
          · exact ⟨logged,above,by omega⟩
          · have logged := (brought above).mp bucket
            exact ⟨logged.1,by omega,by omega⟩
        · rintro ⟨logged,above,upto⟩
          by_cases old : entry.blockNumber ≤ cursor.lastIndexedBlock
          · exact .inl ⟨logged,above,old⟩
          · exact .inr ⟨inside,behind,(brought (by omega)).mpr ⟨logged,by omega⟩,by omega⟩
      · have kept : max cursor.lastIndexedBlock write.prefixEnd = cursor.lastIndexedBlock := by omega
        rw [kept]
        simp [behind]
    · rw [wrote.outside inside]
      simp [inside]

end Write

end Psat.Indexer
