import Psat.Indexer.Exact

namespace Psat.Indexer
open Psat.General
open List (map_append mem_cons mem_filter mem_map mem_singleton)

theorem mem_bucketLogs (ran : bucketLogs single addresses logs = .ok buckets) (stored : IndexedEventLog) :
    stored ∈ buckets ↔ ∃ log ∈ logs, log.entry = stored.entry ∧ log.entry.topic0 = some stored.key.topic0 ∧
      single.getD (Text.lower log.address) = stored.key.address := by
  induction logs generalizing buckets with
  | nil =>
    cases ran
    simp
  | cons log rest ih =>
    unfold bucketLogs at ran
    split at ran
    · rename_i bare
      rw [ih ran]
      constructor
      · rintro ⟨found,member,same⟩
        exact ⟨found,List.mem_cons_of_mem _ member,same⟩
      · rintro ⟨found,member,same⟩
        cases member with
        | head => simp [bare] at same
        | tail _ member => exact ⟨found,member,same⟩
    · rename_i topic0 named
      simp only at ran
      split at ran
      · obtain ⟨others,later,made⟩ := ok_bind.mp ran
        cases made
        rw [mem_cons,ih later]
        constructor
        · rintro (first | ⟨found,member,same⟩)
          · subst first
            exact ⟨log,List.mem_cons_self,rfl,named,rfl⟩
          · exact ⟨found,List.mem_cons_of_mem _ member,same⟩
        · rintro ⟨found,member,same,topic,emitted⟩
          cases member with
          | head =>
            cases stored with
            | mk key entry =>
              simp_all
          | tail _ member => exact .inr ⟨found,member,same,topic,emitted⟩
      · cases ran

theorem Cut.bounded (cut : Cut logs windowEnd previous pending) : previous ≤ windowEnd := by
  induction pending generalizing previous with
  | nil => exact Nat.le_of_eq cut
  | cons first rest ih =>
    obtain ⟨forward,_,later⟩ := cut
    exact Nat.le_trans forward (ih later)

-- No cursor of the group stands below what the open page still has to write.
def VisitOk (chain : Chain) (v : Visit) : Prop :=
  match v.phase with
  | .planned => True
  | .chunks => True
  | .pages _ _ expectedFrom =>
    ∃ previous, expectedFrom = previous + 1 ∧ ∀ member ∈ v.expected, previous ≤ v.position member
  | .prefixes topics _ expectedFrom logs pending => ∃ page previous,
    Faithful chain v.plan.addresses topics page ∧ (∀ log, log ∈ logs ↔ log ∈ page.logs) ∧
    expectedFrom = page.toBlock + 1 ∧ page.fromBlock ≤ previous + 1 ∧ Cut logs page.toBlock previous pending ∧
    ∀ member ∈ v.expected, previous ≤ v.position member

theorem foldl_min_le (blocks : List Nat) (start : Nat) :
    blocks.foldl min start ≤ start ∧ ∀ block ∈ blocks, blocks.foldl min start ≤ block := by
  induction blocks generalizing start with
  | nil => simp
  | cons block rest ih =>
    obtain ⟨below,all⟩ := ih (min start block)
    simp only [List.foldl_cons]
    refine ⟨by omega,fun other member => ?_⟩
    cases member with
    | head => omega
    | tail _ member => exact all other member

theorem Visit.frontier_le (v : Visit) (behind : v.frontier < v.target) (present : member ∈ v.expected) :
    v.frontier ≤ v.position member := by
  by_cases below : v.position member < v.target
  · apply (foldl_min_le _ _).2
    simp only [mem_filter,mem_map,decide_eq_true_eq]
    exact ⟨⟨member,present,rfl⟩,below⟩
  · omega

theorem Visit.position_le (v : Visit) (member : Position) : v.position member ≤ member.last := by
  unfold Visit.position
  split
  · unfold rewoundTo
    split <;> omega
  · exact Nat.le_refl _

-- The store a prefix's transaction works on, once the members are locked.
def Visit.rewound (v : Visit) (store : Store) : Store :=
  if v.rewindPending then applyRewinds v.plan.rewinds store else store

section Commit
variable {v : Visit}

theorem rewound_ok (ok : StoreOk chain history store) : StoreOk chain (history ++ v.rewindEvents store)
    (v.rewound store) := by
  unfold Visit.rewindEvents Visit.rewound
  split
  · exact applyRewinds_ok ok _
  · simpa using ok

theorem locked_member (locked : lockMembers addresses expected store = .ok ())
    (present : cursor ∈ store.cursors) (inside : cursor.key.address ∈ addresses) : cursor.position ∈ expected := by
  unfold lockMembers at locked
  split at locked
  · rename_i same
    rw [← same]
    exact mem_map.mpr ⟨cursor,mem_filter.mpr ⟨present,by simpa using inside⟩,rfl⟩
  · cases locked

theorem rewound_position (locked : lockMembers v.plan.addresses v.expected store = .ok ())
    (present : cursor ∈ (v.rewound store).cursors) (inside : cursor.key.address ∈ v.plan.addresses) :
    ∃ member ∈ v.expected, v.position member = cursor.lastIndexedBlock := by
  unfold Visit.rewound at present
  split at present
  · rename_i pending
    obtain ⟨before,old,rfl⟩ := mem_map.mp present
    rw [rewindCursor_key] at inside
    refine ⟨before.position,locked_member locked old inside,?_⟩
    rw [rewindCursor_last]
    simp [Visit.position,pending]
  · rename_i settled
    exact ⟨cursor.position,locked_member locked present inside,
      by simp [Visit.position,settled,IndexedEventCursor.position]⟩

theorem slice_brings (faithful : Faithful chain addresses topics page) (same : ∀ log, log ∈ logs ↔ log ∈ page.logs)
    (cut : ∀ log, log ∈ slice logs offset endOffset ↔ log ∈ logs ∧ previous < log.blockNumber ∧
      log.blockNumber ≤ prefixEnd)
    (start : page.fromBlock ≤ previous + 1) (inside : prefixEnd ≤ page.toBlock)
    (grouped : bucketLogs (singleAddress addresses) addresses (slice logs offset endOffset) = .ok buckets)
    (past : ∀ cursor ∈ cursors, cursor.key.address ∈ addresses → previous ≤ cursor.lastIndexedBlock)
    (target : Nat) (stamp : Nat → Except Failure (Option String)) :
    Brings chain {addresses,topics,target,prefixEnd,buckets,stamp} cursors := by
  have fetched : ∀ log ∈ slice logs offset endOffset, log ∈ page.logs := by
    intro log member
    exact (same log).mp ((cut log).mp member).1
  constructor
  · intro stored member
    obtain ⟨log,found,entry,topic,emitted⟩ := (mem_bucketLogs grouped stored).mp member
    have held := (faithful.only log (fetched log found)).2.1
    unfold emitter at held
    rw [emitted,entry] at held
    rw [entry] at topic
    exact ⟨held,topic⟩
  · intro cursor present group wanted entry above
    rw [mem_bucketLogs grouped]
    constructor
    · rintro ⟨log,found,rfl,topic,emitted⟩
      have held := (faithful.only log (fetched log found)).2.1
      unfold emitter at held
      rw [emitted] at held
      exact ⟨⟨held,topic⟩,((cut log).mp found).2.2⟩
    · rintro ⟨⟨held,topic⟩,upto⟩
      have below := past cursor present group
      have upto' : entry.blockNumber ≤ prefixEnd := upto
      obtain ⟨log,found,rfl,emitted⟩ := faithful.all cursor.key.address group entry held ⟨_,wanted,topic⟩
        (by omega) (by omega)
      have after : previous < log.blockNumber := Nat.lt_of_le_of_lt below above
      exact ⟨log,(cut log).mpr ⟨(same log).mpr found,after,upto⟩,rfl,topic,emitted⟩

theorem commit_ok (ok : StoreOk chain history store)
    (good : VisitOk chain v)
    (phase : v.phase = .prefixes topics chunkEnd expectedFrom logs ((offset,endOffset,prefixEnd) :: pending))
    (ran : v.writePrefix topics logs offset endOffset prefixEnd store = .ok store') :
    StoreOk chain (history ++ (v.rewindEvents store ++ v.stoodEvents store')) store' ∧
      ∀ cursor ∈ store'.cursors, cursor.key.address ∈ v.plan.addresses → prefixEnd ≤ cursor.lastIndexedBlock := by
  unfold VisitOk at good
  rw [phase] at good
  obtain ⟨page,previous,faithful,same,_,start,⟨_,cut,later⟩,past⟩ := good
  obtain ⟨⟨⟩,locked,ran⟩ := ok_bind.mp ran
  obtain ⟨buckets,grouped,wrote⟩ := ok_bind.mp ran
  have before := rewound_ok (v:=v) ok
  have stand : ∀ cursor ∈ (v.rewound store).cursors, cursor.key.address ∈ v.plan.addresses →
    previous ≤ cursor.lastIndexedBlock := by
    intro cursor present inside
    obtain ⟨member,known,there⟩ := rewound_position locked present inside
    rw [← there]
    exact past member known
  have brings := slice_brings faithful same cut start later.bounded grouped stand v.target v.stamp
  have rows := before.toRowsOk.advance brings wrote
  obtain ⟨all,_⟩ := writeCursors_wrote wrote
  refine ⟨⟨?_,?_⟩,?_⟩
  · rw [stoodEvents_eq,← List.append_assoc]
    exact rows.stood
  · intro cursor' present complete
    obtain ⟨cursor,old,wrote⟩ := Paired.right_partner all present
    rw [stoodEvents_eq,← List.append_assoc]
    apply reachedTarget_stood rows.unique present
    rcases wrote.complete complete with earlier | ⟨inside,now⟩
    · left
      rw [wrote.key]
      exact before.reached cursor old earlier
    · right
      rw [wrote.key]
      exact ⟨inside,now⟩
  · intro cursor' present inside
    obtain ⟨cursor,_,wrote⟩ := Paired.right_partner all present
    rw [wrote.key] at inside
    have last := wrote.last inside
    simp only at last
    omega

theorem RowsOk.relabel (ok : RowsOk chain history store) (change : IndexedEventCursor → IndexedEventCursor)
    (key : ∀ cursor, (change cursor).key = cursor.key)
    (last : ∀ cursor, (change cursor).lastIndexedBlock = cursor.lastIndexedBlock)
    (seed : ∀ cursor, (change cursor).enrolledSeedBlock = cursor.enrolledSeedBlock) :
    RowsOk chain history {store with cursors:=store.cursors.map change} := by
  have keys : (store.cursors.map change).map IndexedEventCursor.key = store.cursors.map IndexedEventCursor.key := by
    simp [Function.comp_def,key]
  have low : ∀ cursor, lowest (change cursor) history = lowest cursor history := by
    simp [lowest,key,seed]
  refine ⟨keys ▸ ok.unique,?_,ok.once,?_,?_,?_⟩
  · intro log member
    obtain ⟨cursor,present,same⟩ := ok.owned log member
    exact ⟨change cursor,List.mem_map_of_mem present,(key cursor).trans same⟩
  · intro event member
    obtain ⟨cursor,present,same⟩ := ok.known event member
    exact ⟨change cursor,List.mem_map_of_mem present,(key cursor).trans same⟩
  · intro cursor' present
    obtain ⟨cursor,old,rfl⟩ := mem_map.mp present
    rw [low,last]
    exact ok.floor cursor old
  · intro cursor' present entry
    obtain ⟨cursor,old,rfl⟩ := mem_map.mp present
    rw [low,last,key]
    exact ok.exact cursor old entry

theorem markWarm_ok (ok : StoreOk chain history store) (locked : lockMembers v.plan.addresses v.expected store = .ok ())
    (there : ∀ member ∈ v.expected, v.target ≤ v.position member) :
    StoreOk chain (history ++ v.stoodEvents (markWarm v.plan.addresses store)) (markWarm v.plan.addresses store) := by
  have rows : RowsOk chain history (markWarm v.plan.addresses store) := by
    apply ok.toRowsOk.relabel
    all_goals
      intro cursor
      split <;> rfl
  rw [stoodEvents_eq]
  refine ⟨rows.stood,?_⟩
  intro cursor' present complete
  apply reachedTarget_stood rows.unique present
  obtain ⟨cursor,old,rfl⟩ := mem_map.mp present
  by_cases inside : cursor.key.address ∈ v.plan.addresses
  · right
    have reach := there _ (locked_member locked old inside)
    have bound := v.position_le cursor.position
    rw [if_pos inside]
    exact ⟨inside,Nat.le_trans reach bound⟩
  · left
    rw [if_neg inside] at complete ⊢
    exact ok.reached cursor old complete

end Commit

theorem receive_ok (good : VisitOk chain v) (phase : v.phase = .pages topics chunkEnd expectedFrom)
    (faithful : Faithful chain v.plan.addresses topics page) (first : page.fromBlock = expectedFrom)
    (forward : page.fromBlock ≤ page.toBlock) (maxRows maxBytes : Nat) :
    VisitOk chain (v.receive topics chunkEnd page maxRows maxBytes) := by
  unfold VisitOk at good
  rw [phase] at good
  obtain ⟨previous,from_,past⟩ := good
  have sorted : ∀ log, log ∈ page.logs.insertionSort byBlock ↔ log ∈ page.logs :=
    fun _ => List.mem_insertionSort byBlock
  refine ⟨page,previous,faithful,sorted,rfl,by omega,?_,past⟩
  apply Tiles.cut
  apply writePrefixes_tiles
  · have : Std.Total byBlock := ⟨fun a b => Nat.le_total a.blockNumber b.blockNumber⟩
    have : IsTrans FetchedEventLog byBlock := ⟨fun _ _ _ => Nat.le_trans⟩
    exact List.pairwise_insertionSort byBlock page.logs
  · intro log member
    obtain ⟨_,_,_,low,high⟩ := faithful.only log ((sorted log).mp member)
    exact ⟨by omega,high⟩
  · omega

theorem acts_ok (ok : StoreOk chain history store) (good : VisitOk chain v)
    (acts : Acts chain store v store' next events) :
    StoreOk chain (history ++ events) store' ∧ ∀ v' ∈ next, VisitOk chain v' := by
  cases acts with
  | warm _ there locked => exact ⟨markWarm_ok ok locked there,by simp⟩
  | chunk span chunkEnd _ behind _ =>
    refine ⟨by simpa using ok,?_⟩
    rintro v' ⟨⟩
    exact ⟨v.frontier,rfl,fun member present => v.frontier_le behind present⟩
  | page maxRows maxBytes phase faithful first _ forward =>
    refine ⟨by simpa using ok,?_⟩
    rintro v' ⟨⟩
    exact receive_ok good phase faithful first forward maxRows maxBytes
  | commit phase ran =>
    obtain ⟨exact_,past⟩ := commit_ok ok good phase ran
    refine ⟨exact_,?_⟩
    rintro v' ⟨⟩
    unfold VisitOk at good
    rw [phase] at good
    obtain ⟨page,previous,faithful,same,covers,start,⟨forward,_,later⟩,_⟩ := good
    refine ⟨page,_,faithful,same,covers,by omega,later,?_⟩
    intro member present
    obtain ⟨cursor,inside,rfl⟩ := mem_map.mp present
    obtain ⟨stored,group⟩ := mem_filter.mp inside
    exact past cursor stored (by simpa using group)
  | pageDone phase =>
    refine ⟨by simpa using ok,?_⟩
    rintro v' ⟨⟩
    unfold VisitOk at good
    rw [phase] at good
    obtain ⟨page,previous,_,_,covers,_,cut,past⟩ := good
    have ended : previous = page.toBlock := cut
    subst ended
    exact ⟨page.toBlock,covers,past⟩
  | stop => exact ⟨by simpa using ok,by simp⟩
  | _ =>
    refine ⟨by simpa using ok,?_⟩
    rintro v' ⟨⟩
    trivial

theorem enroll_ok (ok : StoreOk chain history store) (seed : Nat) (places : store.cursors = before ++ after)
    (fresh : ∀ cursor ∈ store.cursors, cursor.key ≠ key) :
    StoreOk chain history {store with cursors:=before ++ enrollEventCursor key seed :: after} := by
  have members : ∀ cursor, cursor ∈ before ++ enrollEventCursor key seed :: after ↔
    cursor = enrollEventCursor key seed ∨ cursor ∈ store.cursors := by
    rw [places]
    simp only [List.mem_append,mem_cons]
    tauto
  have silent : rewindPoints key history = [] := by
    apply rewindPoints_others
    intro event member
    obtain ⟨cursor,present,same⟩ := ok.known event member
    rw [← same]
    exact fresh cursor present
  have low : lowest (enrollEventCursor key seed) history = seed := by
    simp [lowest,enrollEventCursor,silent]
  refine ⟨⟨?_,?_,ok.once,?_,?_,?_⟩,?_⟩
  · have unique := ok.unique
    rw [places,map_append] at unique
    rw [map_append,List.map_cons,List.nodup_middle,List.nodup_cons]
    refine ⟨?_,unique⟩
    rw [← map_append,← places]
    intro inside
    obtain ⟨cursor,present,same⟩ := mem_map.mp inside
    exact fresh cursor present same
  · intro log member
    obtain ⟨cursor,present,same⟩ := ok.owned log member
    exact ⟨cursor,(members cursor).mpr (.inr present),same⟩
  · intro event member
    obtain ⟨cursor,present,same⟩ := ok.known event member
    exact ⟨cursor,(members cursor).mpr (.inr present),same⟩
  · intro cursor present
    rcases (members cursor).mp present with new | old
    · rw [new,low]
      exact Nat.le_refl _
    · exact ok.floor cursor old
  · intro cursor present entry
    rcases (members cursor).mp present with new | old
    · rw [new,low]
      constructor
      · intro stored
        obtain ⟨owner,present,same⟩ := ok.owned _ stored
        exact absurd same (fresh owner present)
      · rintro ⟨_,above,upto⟩
        have last : (enrollEventCursor key seed).lastIndexedBlock = seed := rfl
        omega
    · exact ok.exact cursor old entry
  · intro cursor present complete
    rcases (members cursor).mp present with new | old
    · rw [new] at complete
      cases complete
    · exact ok.reached cursor old complete

structure WorldOk (chain : Chain) (w : World) : Prop where
  store : StoreOk chain w.history w.store
  visits : ∀ v ∈ w.visits, VisitOk chain v

theorem step_ok (ok : WorldOk chain w) (step : Step chain w w') : WorldOk chain w' := by
  cases step with
  | enroll key seed places fresh => exact ⟨enroll_ok ok.store seed places fresh,ok.visits⟩
  | visit addresses target hashAt depth read =>
    refine ⟨ok.store,?_⟩
    intro v member
    cases member with
    | head => trivial
    | tail _ member => exact ok.visits v member
  | @act before v after store next events places acts =>
    have all := ok.visits
    rw [places] at all
    obtain ⟨stored,next⟩ := acts_ok ok.store (all v (by simp)) acts
    refine ⟨stored,?_⟩
    intro other member
    simp only [List.mem_append,Option.mem_toList] at member
    rcases member with (earlier | acted) | later
    · exact all other (by simp [earlier])
    · exact next other acted
    · exact all other (by simp [later])

theorem reached_ok (reached : Reached chain w) : WorldOk chain w := by
  have initial : ∀ w : World, w = {} → WorldOk chain w := by
    rintro w rfl
    exact ⟨⟨⟨by simp,by simp,by simp,by simp,by simp,by simp⟩,by simp⟩,by simp⟩
  exact Reachable.invariant initial (fun _ _ => step_ok) reached

-- A cursor's rows are the chain's logs above the lowest position it ever held.
theorem cursor_rows_exact {chain : Chain} {w : World} (reached : Reached chain w) :
    w.store.logs.Nodup ∧ ∀ cursor ∈ w.store.cursors,
    (∀ entry, ⟨cursor.key,entry⟩ ∈ w.store.logs ↔ chain.logs cursor.key entry ∧
      lowest cursor w.history < entry.blockNumber ∧
        entry.blockNumber ≤ cursor.lastIndexedBlock) ∧
        (cursor.backfillComplete = true → reachedTarget cursor.key w.history = true) := by
  have ok := (reached_ok reached).store
  refine ⟨ok.once,?_⟩
  intro cursor present
  exact ⟨ok.exact cursor present,ok.reached cursor present⟩

-- A chain with one log, below the seed of the cursor that will read it.
def grant : Entry :=
  {txHash:="0xt1",logIndex:=0,blockNumber:=95,blockHash:="0xb95",transactionIndex:=0,topics:=["granted"],dataWords:=[]}

def grantKey : Key := ⟨"0xa",Text.lower "granted"⟩

def grantChain : Chain where
  holds address entry := address = "0xa" ∧ entry = grant
  identified := by
    rintro _ _ _ _ ⟨rfl,rfl⟩ ⟨rfl,rfl⟩ _ _
    exact ⟨rfl,rfl⟩

theorem Reached.act_alone (reached : Reached chain {store,visits:=[v],history})
    (acts : Acts chain store v store' next events) :
    Reached chain {store:=store',visits:=next.toList,history:=history ++ events} := by
  have step := @Step.act chain {store,visits:=[v],history} [] v [] store' next events rfl acts
  simpa [Reached] using Reachable.next reached step

-- Enrolled at 100 and read up to 110, the visit rewinds by 20 blocks, below the seed.
def grantCursor (last : Nat) (hash : Option String) (complete : Bool) : IndexedEventCursor :=
  {key:=grantKey,lastIndexedBlock:=last,lastIndexedBlockHash:=hash,backfillComplete:=complete,enrolledSeedBlock:=100}

def beyondSeed : World :=
  { store:={cursors:=[grantCursor 120 (some "0xother") true],logs:=[⟨grantKey,grant⟩]}
    history:=[.stood grantKey 110 110,.rewound grantKey 90,.stood grantKey 120 120] }

theorem grant_page (fromBlock toBlock : Nat) (logs : List FetchedEventLog)
    (holds : logs = if fromBlock ≤ 95 ∧ 95 ≤ toBlock then [{entry:=grant}] else []) :
    Faithful grantChain ["0xa"] [Text.lower "granted"] ⟨fromBlock,toBlock,logs⟩ := by
  subst holds
  constructor
  · intro log member
    split at member
    · rename_i inside
      obtain rfl := mem_singleton.mp member
      exact ⟨by simp [emitter,singleAddress],⟨by simp [emitter,singleAddress],rfl⟩,⟨_,by simp,rfl⟩,inside.1,inside.2⟩
    · simp at member
  · rintro address member entry ⟨rfl,rfl⟩ _ low high
    refine ⟨{entry:=grant},?_,rfl,by simp [emitter,singleAddress]⟩
    rw [if_pos ⟨low,high⟩]
    simp

theorem beyondSeed_reached : Reached grantChain beyondSeed := by
  have empty : Reached grantChain {} := .start rfl
  have enrolled := Reachable.next empty (@Step.enroll grantChain {} [] [] grantKey 100 rfl (by simp))
  have visited := Reachable.next enrolled (.visit ["0xa"] 110 (fun _ => some "0xh110") 20 [])
  have started := Reached.act_alone visited (.start rfl ⟨_,mem_singleton.mpr rfl,by decide⟩)
  have asked := Reached.act_alone started (.chunk 100 110 rfl (by decide) (by decide))
  have fetched := Reached.act_alone asked (.page 1 1 rfl (grant_page 101 110 [] (by decide)) rfl
    (by decide) (by decide))
  have written := Reached.act_alone fetched (.commit rfl rfl)
  have stopped := Reached.act_alone written .stop
  have revisited := Reachable.next stopped (.visit ["0xa"] 120 (fun _ => some "0xother") 20 [])
  have restarted := Reached.act_alone revisited (.start rfl ⟨_,mem_singleton.mpr rfl,by decide⟩)
  have reasked := Reached.act_alone restarted (.chunk 100 120 rfl (by decide) (by decide))
  have refetched := Reached.act_alone reasked
    (.page 1 1 rfl (grant_page 91 120 [{entry:=grant}] (by decide)) rfl (by decide) (by decide))
  have rewritten := Reached.act_alone refetched (.commit rfl rfl)
  exact .act_alone rewritten .stop

-- The row at 95 lies below the seed at 100.
theorem rewind_passes_seed : Reached grantChain beyondSeed ∧
    ¬ ∀ cursor ∈ beyondSeed.store.cursors, ∀ entry, ⟨cursor.key,entry⟩ ∈ beyondSeed.store.logs ↔
      grantChain.logs cursor.key entry ∧ cursor.enrolledSeedBlock < entry.blockNumber ∧
      entry.blockNumber ≤ cursor.lastIndexedBlock := by
  refine ⟨beyondSeed_reached,?_⟩
  intro exact_
  have row := (exact_ _ (mem_singleton.mpr rfl) grant).mp (mem_singleton.mpr rfl)
  have above : 100 < 95 := row.2.1
  omega

theorem cursor_rows_exact_beyondSeed : Reached grantChain beyondSeed ∧
    (⟨grantKey,grant⟩ ∈ beyondSeed.store.logs ↔
      grantChain.logs grantKey grant ∧ lowest (grantCursor 120 (some "0xother") true) beyondSeed.history < 95 ∧
        95 ≤ 120) :=
  ⟨beyondSeed_reached,((cursor_rows_exact beyondSeed_reached).2 _ (mem_singleton.mpr rfl)).1 grant⟩

end Psat.Indexer
