import Psat.Events.Folds

namespace Psat.Events
open Psat.General Dict Sorted EventIndex
open Psat.Indexer (Entry FetchedEventLog IndexedEventLog)
open List (foldl_append lookup mem_cons mem_filterMap mem_map mem_map_of_mem mem_singleton)
open Prod (fst snd)
open Text (lower)

-- What the rows say, apart from any loop: the writes of a membership mapping.
namespace FoldSpec

def rowWrites (spec : FoldSpec) (row : Row) : Except Reason (List (String × Bool)) :=
  match lookup row.topic0 spec.hintsByTopic with
  | none => .ok []
  | some hints =>
    match topicFoldMode hints with
    | none => .ok []
    | some mode =>
      if rowIsUndecodable row.entry then .error .undecodableEventData
      else
        match mode with
        | .payload valueHint => gather (spec.hintWrite row.entry mode) [valueHint]
        | .hint => gather (spec.hintWrite row.entry mode) hints

def writes (spec : FoldSpec) (rows : List Row) : Except Reason (List (String × Bool)) := gather spec.rowWrites rows

theorem applyHints_writes (spec : FoldSpec) (entry : Entry) (mode : FoldMode) (hints : List EventHint)
    (state : List (String × Bool)) :
    spec.applyHints entry mode hints state = (gather (spec.hintWrite entry mode) hints).map (write state) := by
  apply foldlM_gather
  · exact fun _ _ => rfl
  · exact fun _ => rfl
  · exact fun _ _ _ => foldl_append

theorem applyRow_writes (spec : FoldSpec) (state : List (String × Bool)) (row : Row) :
    spec.applyRow state row = do return write state (← spec.rowWrites row) := by
  have lifted : ∀ x : Except Reason (List (String × Bool)), x.map (write state) = do return write state (← x) := by
    intro x
    cases x <;> rfl
  unfold applyRow rowWrites
  cases lookup row.topic0 spec.hintsByTopic with
  | none => rfl
  | some hints =>
    dsimp only
    cases topicFoldMode hints with
    | none => rfl
    | some mode =>
      dsimp only
      by_cases raw : rowIsUndecodable row.entry = true
      · rw [if_pos raw,if_pos raw]
        rfl
      · rw [if_neg raw,if_neg raw]
        cases mode with
        | hint => exact (applyHints_writes ..).trans (lifted _)
        | payload valueHint => exact (applyHints_writes ..).trans (lifted _)

theorem applyRows_writes (spec : FoldSpec) (rows : List Row) : spec.applyRows [] rows = (spec.writes rows).map
    (write []) := by
  apply foldlM_gather
  · exact spec.applyRow_writes
  · exact fun _ => rfl
  · exact fun _ _ _ => foldl_append

end FoldSpec

theorem mem_presentMembers (writes : List (String × Bool)) (member : String) :
    member ∈ presentMembers (write [] writes) ↔ lookup member writes.reverse = some true := by
  have distinct : ((write [] writes).map fst).Nodup := write_nodup writes List.nodup_nil
  have last := lookup_write member writes []
  rw [List.lookup_nil,Option.or_none] at last
  rw [← last,← mem_iff_lookup distinct]
  simp only [presentMembers,mem_sortBy,mem_map,List.mem_filter]
  constructor
  · rintro ⟨⟨key,present⟩,⟨inside,rfl⟩,rfl⟩
    exact inside
  · intro inside
    exact ⟨(member,true),⟨inside,rfl⟩,rfl⟩

namespace ValueSpec

-- A row's readings, under its place in the chain.
def rowReadings (spec : ValueSpec) (row : Row) : Except Reason (List (Place × List (String × String))) :=
  match lookup row.topic0 spec.hintsByTopic with
  | none => .ok []
  | some hints =>
    if rowIsUndecodable row.entry then .error .undecodableEventData
    else do
      let readings ← gather (spec.hintReading row.entry) hints
      return [(place row.entry,readings)]

def readings (spec : ValueSpec) (rows : List Row) : Except Reason (List (Place × List (String × String))) :=
  gather spec.rowReadings rows

-- The value of a key: the first reading of the last row that reads it.
def latest (readings : List (Place × List (String × String))) (key : String) : Option (String × Place) :=
  readings.reverse.findSome? fun row => (lookup key row.2).map fun value => (value,row.1)

def recordRow (state : State) (row : Place × List (String × String)) : State := row.2.foldl (record row.1) state

theorem applyRow_readings (spec : ValueSpec) (state : State) (row : Row) :
    spec.applyRow state row = do return (← spec.rowReadings row).foldl recordRow state := by
  unfold applyRow rowReadings
  cases lookup row.topic0 spec.hintsByTopic with
  | none => rfl
  | some hints =>
    dsimp only
    by_cases raw : rowIsUndecodable row.entry = true
    · rw [if_pos raw,if_pos raw]
      rfl
    rw [if_neg raw,if_neg raw]
    have gathered : spec.applyHints row.entry hints state =
      (gather (spec.hintReading row.entry) hints).map fun readings => readings.foldl (record (place row.entry)) state :=
        by
      apply foldlM_gather
      · exact fun _ _ => rfl
      · exact fun _ => rfl
      · exact fun _ _ _ => foldl_append
    rw [gathered]
    cases gather (spec.hintReading row.entry) hints <;> rfl

theorem applyRows_readings (spec : ValueSpec) (rows : List Row) :
    spec.applyRows [] rows = (spec.readings rows).map fun readings => readings.foldl recordRow [] := by
  apply foldlM_gather
  · exact spec.applyRow_readings
  · exact fun _ => rfl
  · exact fun _ _ _ => foldl_append

theorem record_nodup (at_ : Place) (reading : String × String) (distinct : (state.map fst).Nodup) :
    ((record at_ state reading).map fst).Nodup := by
  unfold record
  split
  · exact put_nodup _ _ distinct
  · split
    · exact put_nodup _ _ distinct
    · exact distinct

theorem lookup_recordRow (at_ : Place) (readings : List (String × String)) (state : State) (key : String)
    (before : ∀ value old, lookup key state = some (value,old) → old ≤ at_) : lookup key
    (readings.foldl (record at_) state) =
      if (lookup key state).map snd = some at_ then lookup key state
      else ((lookup key readings).map fun value => (value,at_)).or (lookup key state) := by
  induction readings generalizing state with
  | nil => simp
  | cons reading rest ih =>
    obtain ⟨written,value⟩ := reading
    rw [List.foldl_cons]
    by_cases same : written = key
    · subst same
      by_cases held : (lookup written state).map snd = some at_
      · obtain ⟨⟨kept,old⟩,found,rfl⟩ := Option.map_eq_some_iff.mp held
        have unchanged : record old state (written,value) = state := by
          simp [record,found]
        rw [unchanged,ih state before,if_pos held,if_pos held]
      · have fresh : record at_ state (written,value) = put written (value,at_) state := by
          unfold record
          split
          · rfl
          · rename_i prior found
            have less : prior.2 < at_ := by
              apply lt_of_le_of_ne (before prior.1 prior.2 found)
              intro equal
              exact held (by rw [← equal]; exact congrArg (Option.map snd) found)
            rw [if_pos less]
        have stands : lookup written (put written (value,at_) state) = some (value,at_) := by
          rw [lookup_put,if_pos rfl]
        rw [fresh,ih _ (by rw [stands]; rintro _ _ ⟨⟩; exact le_refl _),stands,if_neg held]
        simp
    · have other : lookup key (record at_ state (written,value)) = lookup key state := by
        have missing : ∀ entry, lookup key (put written entry state) = lookup key state := by
          intro entry
          rw [lookup_put,if_neg (Ne.symm same)]
        unfold record
        split
        · exact missing _
        · split
          · exact missing _
          · rfl
      rw [ih _ (by rw [other]; exact before),other,lookup_cons_ne (Ne.symm same)]

theorem lookup_recordRows (readings : List (Place × List (String × String)))
    (ordered : readings.Pairwise fun a b => a.1 < b.1) (key : String) :
    lookup key (readings.foldl recordRow []) = latest readings key := by
  suffices held : lookup key (readings.foldl recordRow []) = latest readings key ∧
    ∀ value old, latest readings key = some (value,old) → ∃ row ∈ readings, row.1 = old from held.1
  induction readings using List.reverseRecOn with
  | nil => simp [latest]
  | append_singleton earlier row ih =>
    rw [List.pairwise_append] at ordered
    obtain ⟨orderedBefore,_,below⟩ := ordered
    obtain ⟨stands,placed⟩ := ih orderedBefore
    have step : latest (earlier ++ [row]) key =
      ((lookup key row.2).map fun value => (value,row.1)).or (latest earlier key) := by
      simp only [latest,List.reverse_append,List.reverse_singleton,List.singleton_append,List.findSome?_cons]
      cases lookup key row.2 <;> rfl
    have older : ∀ value old, lookup key (earlier.foldl recordRow []) = some (value,old) → old < row.1 := by
      intro value old found
      obtain ⟨before,member,rfl⟩ := placed value old (stands ▸ found)
      exact below before member row (by simp)
    refine ⟨?_,?_⟩
    · rw [foldl_append,List.foldl_cons,List.foldl_nil,step,← stands]
      have row' := lookup_recordRow row.1 row.2 (earlier.foldl recordRow []) key fun value old found =>
        le_of_lt (older value old found)
      rw [recordRow,row',if_neg]
      intro equal
      obtain ⟨⟨value,old⟩,found,same⟩ := Option.map_eq_some_iff.mp equal
      exact lt_irrefl _ (same ▸ older value old found)
    · intro value old found
      rw [step] at found
      rcases Option.or_eq_some_iff.mp found with here | ⟨_,there⟩
      · obtain ⟨value',_,equal⟩ := Option.map_eq_some_iff.mp here
        cases equal
        exact ⟨row,by simp,rfl⟩
      · obtain ⟨before,member,same⟩ := placed value old there
        exact ⟨before,by simp [member],same⟩

theorem rowReadings_place {spec : ValueSpec} (read : spec.rowReadings row = .ok found) :
    found = [] ∨ ∃ readings, found = [(place row.entry,readings)] := by
  unfold rowReadings at read
  split at read
  · cases read
    exact .inl rfl
  · split at read
    · cases read
    · obtain ⟨readings,_,made⟩ := ok_bind.mp read
      cases made
      exact .inr ⟨readings,rfl⟩

theorem readings_ordered {spec : ValueSpec} (ordered : rows.Pairwise fun a b => place a.entry < place b.entry)
    (read : spec.readings rows = .ok found) :
    found.Pairwise (fun a b => a.1 < b.1) ∧ ∀ reading ∈ found, ∃ row ∈ rows, place row.entry = reading.1 := by
  induction rows generalizing found with
  | nil =>
    cases read
    simp
  | cons row rest ih =>
    rw [List.pairwise_cons] at ordered
    obtain ⟨first,here,read⟩ := ok_bind.mp read
    obtain ⟨later,there,made⟩ := ok_bind.mp read
    cases made
    obtain ⟨sorted,placed⟩ := ih ordered.2 there
    have behind : ∀ reading ∈ later, place row.entry < reading.1 := by
      intro reading member
      obtain ⟨other,inside,same⟩ := placed reading member
      rw [← same]
      exact ordered.1 other inside
    have rest' : ∀ reading ∈ later, ∃ other ∈ row :: rest, place other.entry = reading.1 := by
      intro reading member
      obtain ⟨other,inside,same⟩ := placed reading member
      exact ⟨other,List.mem_cons_of_mem _ inside,same⟩
    rcases rowReadings_place here with rfl | ⟨readings,rfl⟩
    · exact ⟨sorted,rest'⟩
    · refine ⟨List.pairwise_cons.mpr ⟨behind,sorted⟩,?_⟩
      intro reading member
      rcases mem_cons.mp member with rfl | inside
      · exact ⟨row,List.mem_cons_self,rfl⟩
      · exact rest' reading inside

theorem recordRows_nodup (readings : List (Place × List (String × String)))
    (distinct : (state.map fst).Nodup) : ((readings.foldl recordRow state).map fst).Nodup := by
  have row : ∀ (at_ : Place) (pairs : List (String × String)) (state : State), (state.map fst).Nodup →
    ((pairs.foldl (record at_) state).map fst).Nodup := by
    intro at_ pairs
    induction pairs with
    | nil => exact fun _ distinct => distinct
    | cons pair rest ih => exact fun state distinct => ih _ (record_nodup at_ pair distinct)
  induction readings generalizing state with
  | nil => exact distinct
  | cons reading rest ih => exact ih (row reading.1 reading.2 state distinct)

theorem mem_valueEntries (readings : List (Place × List (String × String)))
    (ordered : readings.Pairwise fun a b => a.1 < b.1) (entry : ValueEntry) : entry ∈ valueEntries
    (readings.foldl recordRow []) ↔
      (latest readings entry.key).map (fun found => (found.1,(ofLex found.2).1)) = some
      (entry.valueHex,entry.lastBlock) := by
  have distinct : ((readings.foldl recordRow []).map fst).Nodup := recordRows_nodup readings List.nodup_nil
  rw [← lookup_recordRows readings ordered entry.key,Option.map_eq_some_iff]
  simp only [valueEntries,mem_map]
  constructor
  · rintro ⟨⟨key,value⟩,member,rfl⟩
    exact ⟨value,(mem_iff_lookup distinct key value).mp member,rfl⟩
  · rintro ⟨value,found,equal⟩
    refine ⟨(entry.key,value),(mem_iff_lookup distinct _ _).mpr found,?_⟩
    cases entry
    cases equal
    rfl

end ValueSpec

-- The published height, and where each topic's logs were cut.
inductive EventIndex.Published (index : EventIndex) (address : String) (topic0s : List String) (block : Option Nat) :
    Nat → (String → Nat) → Prop
  | tail {height cursor : Nat} {topic : String} : block = some height → topic ∈ topic0s →
    index.cursorState address topic = (some cursor,true) → cursor < height →
    Published index address topic0s block height fun _ => height
  | covered {pinned height : Nat} {cut : String → Nat} : block = some pinned → pinned ≤ height →
    (∀ topic ∈ topic0s, index.cursorState address topic = (some (cut topic),true) ∧ height ≤ cut topic) →
    (∃ topic ∈ topic0s, cut topic = height) → Published index address topic0s block height cut

section Reading
variable {index : EventIndex} {topic0s : List String}

theorem warmBlock_states (warm : warmBlock (topic0s.map (index.cursorState address)) = some height) :
    ∃ cut : String → Nat, (∀ topic ∈ topic0s, index.cursorState address topic = (some (cut topic),true) ∧
      height ≤ cut topic) ∧
      ∃ topic ∈ topic0s, cut topic = height := by
  unfold warmBlock at warm
  simp only at warm
  split at warm
  · rename_i all
    rw [List.length_filterMap_eq_countP,List.countP_eq_length] at all
    have known : ∀ topic ∈ topic0s, ∃ at_, index.cursorState address topic = (some at_,true) := by
      intro topic member
      have found := all _ (mem_map_of_mem member)
      generalize index.cursorState address topic = state at found ⊢
      obtain ⟨at_,done⟩ := state
      cases done <;> cases at_ <;> simp at found ⊢
    obtain ⟨least,below⟩ := List.min?_eq_some_iff.mp warm
    refine ⟨fun topic => (index.cursorState address topic).1.getD 0,?_,?_⟩
    · intro topic member
      obtain ⟨at_,state⟩ := known topic member
      simp only [state,Option.getD_some,true_and]
      apply below
      exact mem_filterMap.mpr ⟨_,mem_map_of_mem member,by simp [state]⟩
    · obtain ⟨state,inside,same⟩ := mem_filterMap.mp least
      obtain ⟨topic,member,rfl⟩ := mem_map.mp inside
      obtain ⟨at_,state⟩ := known topic member
      refine ⟨topic,member,?_⟩
      simp only [state] at same ⊢
      simpa using same
  · cases warm

theorem minIndexedBlock_warm (found : index.minIndexedBlock address topic0s = some height) :
    warmBlock (topic0s.map (index.cursorState address)) = some height := by
  unfold minIndexedBlock at found
  simp only at found
  split at found
  · cases found
  · rename_i gapless
    have complete : ∀ state ∈ topic0s.map (index.cursorState address), (if state.2 then state.1 else none) = state.1 ∧
      state.1.isSome = true := by
      intro state member
      rw [Bool.not_eq_true,List.any_eq_false] at gapless
      have whole := gapless state member
      obtain ⟨at_,done⟩ := state
      cases done <;> cases at_ <;> simp at whole ⊢
    have same : ((topic0s.map (index.cursorState address)).filterMap fun state => if state.2 then state.1 else none) =
      (topic0s.map (index.cursorState address)).filterMap fst :=
      List.filterMap_congr fun state member => (complete state member).1
    unfold warmBlock
    simp only [same]
    rw [if_pos,found]
    rw [List.length_filterMap_eq_countP,List.countP_eq_length]
    exact fun state member => (complete state member).2

theorem History.through_congr (history : History) (same : ∀ topic ∈ topic0s, cut topic = cut' topic) :
    history.through address topic0s cut = history.through address topic0s cut' := by
  apply List.filter_congr
  intro log _
  by_cases inside : History.covers address topic0s log = true
  · have member : log.key.topic0 ∈ topic0s := by
      simp only [History.covers,Bool.decide_and,Bool.and_eq_true,decide_eq_true_eq] at inside
      exact inside.2
    rw [same _ member]
  · simp [inside]

variable {cut : String → Nat}

section
variable (holds : index.Holds history) (lowered : Lowered topic0s)
    (cursors : ∀ topic ∈ topic0s, index.cursorState address topic = (some (cut topic),true) ∧ height ≤ cut topic)
include holds lowered cursors

theorem selectRows_behind (below : block ≤ height) :
    index.selectRows address topic0s (some block) = history.through address topic0s fun _ => block := by
  rw [selectRows_eq holds lowered cut (fun topic member => (cursors topic member).1)]
  apply history.through_congr
  intro topic member
  exact Nat.min_eq_left (Nat.le_trans below (cursors topic member).2)

theorem selectRows_covered (most : ((topic0s.map (index.cursorState address)).filterMap fst).max? = some front) :
    index.selectRows address topic0s (some front) = history.through address topic0s cut := by
  rw [selectRows_eq holds lowered cut (fun topic member => (cursors topic member).1)]
  apply history.through_congr
  intro topic member
  apply Nat.min_eq_right
  apply (List.max?_eq_some_iff.mp most).2
  exact mem_filterMap.mpr ⟨_,mem_map_of_mem member,by rw [(cursors topic member).1]⟩

theorem rows_with_tail (sound : TailSound history tail) (complete : (tail address topic0s height block).complete = true)
    (behind : height ≤ block) :
    (index.selectRows address topic0s (some height)).map storedRow ++
    (tail address topic0s height block).logs.map fetchedRow =
      (history.through address topic0s fun _ => block).map storedRow := by
  rw [selectRows_behind holds lowered cursors (Nat.le_refl _),(sound address topic0s height block lowered complete).2,
    ← List.map_append,history.through_between behind]

end

theorem max_exists (cursors : ∃ topic ∈ topic0s, (index.cursorState address topic).1 = some height) :
    ∃ frontier, ((topic0s.map (index.cursorState address)).filterMap fst).max? = some frontier := by
  obtain ⟨topic,member,state⟩ := cursors
  cases found : ((topic0s.map (index.cursorState address)).filterMap fst).max? with
  | some frontier => exact ⟨frontier,rfl⟩
  | none =>
    rw [List.max?_eq_none_iff] at found
    have inside : height ∈ (topic0s.map (index.cursorState address)).filterMap fst :=
      mem_filterMap.mpr ⟨_,mem_map_of_mem member,state⟩
    rw [found] at inside
    cases inside

theorem groupByTopic_keys (member : topic ∈ (groupByTopic hints topicOf).map fst) : ∃ hint, topicOf hint = some topic :=
    by
  suffices kept : ∀ topic ∈ (groupByTopic hints topicOf).map fst, ∃ hint, topicOf hint =
    some topic from kept topic member
  refine List.foldlRecOn (motive := fun grouped : List (String × List EventHint) =>
    ∀ topic ∈ grouped.map fst, ∃ hint, topicOf hint = some topic) hints _ (by simp) fun grouped old hint _ => ?_
  split
  · exact old
  · rename_i topic0 named
    intro topic inside
    rcases (mem_keys_put _ _ _ _).mp inside with rfl | earlier
    · exact ⟨hint,named⟩
    · exact old topic earlier

theorem normalizeTopic_lower {raw : Option String} (normal : raw.bind normalizeTopic = some topic) :
    lower topic = topic := by
  obtain ⟨text,_,found⟩ := Option.bind_eq_some_iff.mp normal
  unfold normalizeTopic at found
  simp only at found
  split at found
  · cases found
    exact Text.lower_lower text
  · cases found

theorem valueHintsByTopic_lowered (hints : List EventHint) : Lowered (sortBy id ((valueHintsByTopic hints).map fst)) :=
    by
  intro topic member
  obtain ⟨hint,named⟩ := groupByTopic_keys ((mem_sortBy id _ topic).mp member)
  exact normalizeTopic_lower named

theorem sortedSet_lowered (topic0s : List String) : Lowered (sortedSet (topic0s.map lower)) := by
  intro topic member
  rw [mem_sortedSet] at member
  obtain ⟨raw,_,rfl⟩ := mem_map.mp member
  exact Text.lower_lower raw

theorem foldSpec_hints (made : foldSpec keySources hintsByTopic = some spec) : spec.hintsByTopic = hintsByTopic := by
  obtain ⟨memberKey,_,made⟩ := Option.bind_eq_some_iff.mp made
  obtain ⟨keyFilters,_,made⟩ := Option.bind_eq_some_iff.mp made
  split at made
  · cases made
  · cases made
    rfl

end Reading

theorem covers_some (covered : cursorCoversBlock (some height) block = true) : ∃ pinned, block = some pinned ∧
    pinned ≤ height := by
  cases block with
  | none => cases covered
  | some pinned => exact ⟨pinned,rfl,of_decide_eq_true covered⟩

theorem covers_false (uncovered : cursorCoversBlock (some height) (some pinned) = false) : height < pinned := by
  have := of_decide_eq_false uncovered
  omega

theorem completeWithTail_some (scanned : completeWithTail tail address topic0s front block = some scan) :
    ∃ scanner pinned, scanner ∈ tail ∧ block = some pinned ∧ scan = scanner address topic0s front pinned := by
  unfold completeWithTail at scanned
  split at scanned
  · cases scanned
    exact ⟨_,_,rfl,rfl,rfl⟩
  · cases scanned

section Answers
variable {index : EventIndex}

theorem foldEventHistory_reads (holds : index.Holds history) (sound : ∀ scan ∈ tail, TailSound history scan)
    (enumerable : (index.foldEventHistory address hints keySources block tail).confidence = .enumerable) :
    ∃ spec height cut state, foldSpec keySources (eventHintsByTopic hints) = some spec ∧
      (index.foldEventHistory address hints keySources block tail).lastIndexedBlock = some height ∧
      index.Published address spec.topic0s block height cut ∧
      spec.applyRows [] ((history.through address spec.topic0s cut).map storedRow) = .ok state ∧
      (index.foldEventHistory address hints keySources block tail).members = presentMembers state := by
  have lowered {spec : FoldSpec} (made : foldSpec keySources (eventHintsByTopic hints) =
    some spec) : Lowered spec.topic0s := by
    unfold FoldSpec.topic0s
    rw [foldSpec_hints made]
    intro topic member
    obtain ⟨hint,named⟩ := groupByTopic_keys ((mem_sortBy id _ topic).mp member)
    split at named
    · exact normalizeTopic_lower named
    · cases named
  revert enumerable
  fun_cases foldEventHistory index address hints keySources block tail with
  | case7 spec made _ topic0s states warm behind ceiling state applied height stands late scan
    scanned complete final more =>
    intro _
    obtain ⟨cut,cursors,topic,inside,same⟩ := warmBlock_states stands
    obtain ⟨scanner,pinned,given,rfl,rfl⟩ := completeWithTail_some scanned
    have uncovered : height < pinned := covers_false (by simpa [behind,stands] using late)
    have cutAt : ceiling = some height := (if_pos late).trans stands
    rw [cutAt] at applied
    have scanned := EventIndex.Published.tail rfl inside (cursors topic inside).1 (lt_of_eq_of_lt same uncovered)
    refine ⟨spec,pinned,fun _ => pinned,final,made,rfl,scanned,?_,rfl⟩
    rw [← rows_with_tail holds (lowered made) cursors (sound scanner given) complete (Nat.le_of_lt uncovered)]
    exact foldlM_append_ok applied more
  | case9 spec made _ topic0s states warm behind ceiling state applied height stands covered =>
    intro _
    obtain ⟨cut,cursors,topic,inside,same⟩ := warmBlock_states stands
    obtain ⟨frontier,most⟩ := max_exists ⟨topic,inside,congrArg fst (cursors topic inside).1⟩
    obtain ⟨pinned,rfl,below⟩ := covers_some (by simpa [behind,stands] using covered)
    have cutAt : ceiling = some frontier := (if_neg covered).trans (by rw [most]; rfl)
    rw [cutAt,selectRows_covered holds (lowered made) cursors most] at applied
    exact ⟨spec,height,cut,state,made,rfl,.covered rfl below cursors ⟨topic,inside,same⟩,applied,rfl⟩
  | _ =>
    intro enumerable
    cases enumerable

theorem iterEventRows_ok (lowered : Lowered topic0s) (read : index.iterEventRows address topic0s ceiling = .ok rows) :
    rows = index.selectRows address topic0s ceiling := by
  have same : topic0s.map lower = topic0s := (List.map_congr_left lowered).trans (List.map_id _)
  unfold iterEventRows at read
  simp only [same] at read
  split at read
  · rename_i none
    rw [List.isEmpty_iff] at none
    subst none
    cases read
    simp [selectRows,sortBy]
  · split at read
    · cases read
    · cases read
      rfl

def valueSpec (keySources : List KeySource) (position : Option Int) (hints : List EventHint) : Option ValueSpec :=
  (valueKeys keySources position).map fun keys => {keys,hintsByTopic:=valueHintsByTopic hints}

theorem foldEventValues_reads (holds : index.Holds history) (sound : ∀ scan ∈ tail, TailSound history scan)
    (complete : (index.foldEventValues address hints keySources position block tail).complete = true) :
    ∃ spec height cut state, valueSpec keySources position hints = some spec ∧
      (index.foldEventValues address hints keySources position block tail).lastIndexedBlock = some height ∧
      index.Published address spec.topic0s block height cut ∧
      spec.applyRows [] ((history.through address spec.topic0s cut).map storedRow) = .ok state ∧
      (index.foldEventValues address hints keySources position block tail).entries = valueEntries state := by
  have lowered (keys : ValueKeys) : Lowered (ValueSpec.topic0s {keys,hintsByTopic:=valueHintsByTopic hints}) :=
    valueHintsByTopic_lowered hints
  revert complete
  fun_cases foldEventValues index address hints keySources position block tail with
  | case8 keys keyed _ spec _ _ states height frontier most least behind state read late scan
    scanned whole final more =>
    intro _
    obtain ⟨cut,cursors,topic,inside,same⟩ := warmBlock_states least
    obtain ⟨rows,found,applied⟩ := ok_bind.mp read
    rw [iterEventRows_ok (lowered keys) found,if_pos late] at applied
    obtain ⟨scanner,pinned,given,rfl,rfl⟩ := completeWithTail_some scanned
    have uncovered : height < pinned := covers_false (by simpa [behind] using late)
    have scanned := EventIndex.Published.tail rfl inside (cursors topic inside).1 (lt_of_eq_of_lt same uncovered)
    refine ⟨spec,pinned,fun _ => pinned,final,by simp [valueSpec,keyed,spec],rfl,scanned,?_,rfl⟩
    rw [← rows_with_tail holds (lowered keys) cursors (sound scanner given) whole (Nat.le_of_lt uncovered)]
    exact foldlM_append_ok applied more
  | case10 keys keyed _ spec _ _ states height frontier most least behind state read covered =>
    intro _
    obtain ⟨cut,cursors,topic⟩ := warmBlock_states least
    obtain ⟨pinned,rfl,below⟩ := covers_some (by simpa [behind] using covered)
    obtain ⟨rows,found,applied⟩ := ok_bind.mp read
    rw [iterEventRows_ok (lowered keys) found,if_neg covered,selectRows_covered holds
      (lowered keys) cursors most] at applied
    exact ⟨spec,height,cut,state,by simp [valueSpec,keyed,spec],rfl,.covered rfl below cursors topic,applied,rfl⟩
  | _ =>
    intro complete
    cases complete

theorem History.between_lower (history : History) :
    history.between (lower address) topic0s low high = history.between address topic0s low high := by
  simp [History.between,History.covers]

theorem logsThroughBlock_reads (holds : index.Holds history) (sound : ∀ scan ∈ tail, TailSound history scan)
    (ran : index.logsThroughBlock address topic0s block tail = .ok answer) (complete : answer.complete = true) :
    ∃ height cut, answer.lastIndexedBlock = some height ∧
      index.Published address (sortedSet (topic0s.map lower)) block height cut ∧
      answer.logs = (history.through address (sortedSet (topic0s.map lower)) cut).map storedRow := by
  have lowered := sortedSet_lowered topic0s
  unfold logsThroughBlock at ran
  dsimp only at ran
  split at ran
  · rename_i warm frontier least most
    obtain ⟨cut,cursors,topic⟩ := warmBlock_states least
    split at ran
    · cases ran
      cases complete
    rename_i pinned
    split at ran
    · rename_i behind
      obtain ⟨rows,found,ran⟩ := ok_bind.mp ran
      have stored := iterEventRows_ok lowered found
      split at ran
      · cases ran
        cases complete
      rename_i scan scanned
      obtain ⟨scanner,given,rfl⟩ := Option.map_eq_some_iff.mp scanned
      split at ran
      · rename_i whole
        split at ran
        · cases ran
        cases ran
        obtain ⟨name,inside,same⟩ := topic
        refine ⟨pinned,fun _ => pinned,rfl,.tail rfl inside (cursors name inside).1 (by omega),?_⟩
        have scan := (sound scanner given (lower address) _ warm pinned lowered whole).2
        rw [History.between_lower] at scan
        rw [stored,selectRows_behind holds lowered cursors (Nat.le_refl _),scan,← List.map_append,
          history.through_between (Nat.le_of_lt behind)]
      · cases ran
        cases complete
    · rename_i covered
      obtain ⟨rows,found,ran⟩ := ok_bind.mp ran
      cases ran
      refine ⟨warm,cut,rfl,.covered rfl (by omega) cursors topic,?_⟩
      rw [iterEventRows_ok lowered found,selectRows_covered holds lowered cursors most]
  · cases ran
    cases complete

end Answers

-- Whatever the cursors, a complete answer is the true history up to where it was cut.
theorem complete_folds_read_history {index : EventIndex} {history : History} {tail : Option TailScanner}
    (holds : index.Holds history) (sound : ∀ scan ∈ tail, TailSound history scan) (address : String)
    (block : Option Nat) :
    (∀ hints keySources, (index.foldEventHistory address hints keySources block tail).confidence = .enumerable →
      ∃ spec height cut writes, foldSpec keySources (eventHintsByTopic hints) = some spec ∧
        (index.foldEventHistory address hints keySources block tail).lastIndexedBlock = some height ∧
        index.Published address spec.topic0s block height cut ∧
        spec.writes ((history.through address spec.topic0s cut).map storedRow) = .ok writes ∧
        ∀ member, member ∈ (index.foldEventHistory address hints keySources block tail).members ↔
          lookup member writes.reverse = some true) ∧
    (∀ hints keySources position, (index.foldEventValues address hints keySources position block tail).complete = true →
      ∃ spec height cut readings, valueSpec keySources position hints = some spec ∧
        (index.foldEventValues address hints keySources position block tail).lastIndexedBlock = some height ∧
        index.Published address spec.topic0s block height cut ∧
        spec.readings ((history.through address spec.topic0s cut).map storedRow) = .ok readings ∧
        ∀ entry, entry ∈ (index.foldEventValues address hints keySources position block tail).entries ↔
          (ValueSpec.latest readings entry.key).map (fun found => (found.1,(ofLex found.2).1)) = some
            (entry.valueHex,entry.lastBlock)) ∧
    (∀ topic0s answer, index.logsThroughBlock address topic0s block tail = .ok answer → answer.complete = true →
      ∃ height cut, answer.lastIndexedBlock = some height ∧
        index.Published address (sortedSet (topic0s.map lower)) block height cut ∧
        answer.logs = (history.through address (sortedSet (topic0s.map lower)) cut).map storedRow) := by
  refine ⟨?_,?_,?_⟩
  · intro hints keySources enumerable
    obtain ⟨spec,height,cut,state,made,published,cutAt,applied,members⟩ := foldEventHistory_reads holds sound enumerable
    rw [spec.applyRows_writes] at applied
    obtain ⟨writes,read,rfl⟩ := ok_map.mp applied
    refine ⟨spec,height,cut,writes,made,published,cutAt,read,?_⟩
    intro member
    rw [members]
    exact mem_presentMembers writes member
  · intro hints keySources position complete
    obtain ⟨spec,height,cut,state,made,published,cutAt,applied,entries⟩ := foldEventValues_reads holds sound complete
    rw [spec.applyRows_readings] at applied
    obtain ⟨readings,read,rfl⟩ := ok_map.mp applied
    have ordered : ((history.through address spec.topic0s cut).map storedRow).Pairwise fun a b =>
      place a.entry < place b.entry := by
      rw [List.pairwise_map]
      exact history.ordered.filter _
    refine ⟨spec,height,cut,readings,made,published,cutAt,read,?_⟩
    intro entry
    rw [entries]
    exact ValueSpec.mem_valueEntries readings (ValueSpec.readings_ordered ordered read).1 entry
  · intro topic0s answer ran complete
    exact logsThroughBlock_reads holds sound ran complete

def granted : IndexedEventLog where
  key := ⟨"0xa",lower "0xadd"⟩
  entry :=
    { txHash:="0xt1",logIndex:=0,blockNumber:=15,blockHash:="0xb15",transactionIndex:=0
      topics:=["0xadd","0x1111111111111111111111111111111111111111"],dataWords:=[] }

def aheadIndex : EventIndex where
  cursors :=
    [ { key:=⟨"0xa",lower "0xadd"⟩,lastIndexedBlock:=20,backfillComplete:=true,enrolledSeedBlock:=0
        firstIndexedBlockBasis:=some .creationBlockMinusOne },
        { key:=⟨"0xa",lower "0xrem"⟩,lastIndexedBlock:=10,backfillComplete:=true,enrolledSeedBlock:=0
          firstIndexedBlockBasis:=some .creationBlockMinusOne } ]
  logs := [granted]

def grantHistory : History where
  logs := [granted]
  ordered := List.pairwise_singleton _ _
  named := by
    intro log member
    obtain rfl := mem_singleton.mp member
    rfl

def grantHints : List EventHint :=
  [ {topic0:=some "0xadd",direction:=some .add,topicsToKeys:=[(1,0)]},
      {topic0:=some "0xrem",direction:=some .remove,topicsToKeys:=[(1,0)]} ]

theorem aheadIndex_holds : aheadIndex.Holds grantHistory := by
  refine ⟨List.nodup_singleton _,?_⟩
  intro cursor present _ entry
  simp only [aheadIndex,mem_cons,List.not_mem_nil,or_false] at present
  rcases present with rfl | rfl
  · constructor
    · intro stored
      cases mem_singleton.mp stored
      decide
    · exact fun stored => stored.1
  · constructor
    · intro stored
      have key : (⟨"0xa",lower "0xrem"⟩ : Psat.Indexer.Key) = granted.key :=
        congrArg (fun log : IndexedEventLog => log.key) (mem_singleton.mp stored)
      exact absurd key (by decide)
    · exact fun stored => stored.1

def callerKey : List KeySource := [{source:=some "msg_sender"}]

-- The published height is 10, and nobody was in at 10.
theorem fold_reads_past_published : aheadIndex.Holds grantHistory ∧
    aheadIndex.foldEventHistory "0xa" grantHints callerKey (some 10) none =
    {members:=["0x1111111111111111111111111111111111111111"],lastIndexedBlock:=some 10} ∧
    grantHistory.through "0xa" ["0xadd","0xrem"] (fun _ => 10) = [] := by
  refine ⟨aheadIndex_holds,?_,?_⟩
  · decide +kernel
  · decide +kernel

def refusedTail : Option TailScanner := some (scanEventTail fun _ _ _ _ => none)

theorem refusedTail_sound : ∀ scan ∈ refusedTail, TailSound grantHistory scan := by
  rintro scan ⟨⟩
  apply scanEventTail_sound
  rintro _ _ _ _ logs ⟨⟩

theorem complete_folds_read_history_ahead : ∃ spec height cut writes,
    foldSpec callerKey (eventHintsByTopic grantHints) = some spec ∧
      (aheadIndex.foldEventHistory "0xa" grantHints callerKey (some 10) refusedTail).lastIndexedBlock = some height ∧
      aheadIndex.Published "0xa" spec.topic0s (some 10) height cut ∧
      spec.writes ((grantHistory.through "0xa" spec.topic0s cut).map storedRow) = .ok writes ∧
      ∀ member, member ∈ (aheadIndex.foldEventHistory "0xa" grantHints callerKey (some 10) refusedTail).members ↔
        lookup member writes.reverse = some true :=
  (complete_folds_read_history aheadIndex_holds refusedTail_sound "0xa" (some 10)).1 grantHints callerKey
    (by decide +kernel)

end Psat.Events
