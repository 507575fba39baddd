import Psat.Events.Exact

namespace Psat.Events
open Psat.General List
open Psat.Indexer (Entry)

namespace FoldSpec

-- A row of a fold whose writes all add.
def plainWrite (spec : FoldSpec) (hint : EventHint) (entry : Entry) : Except Reason (List (String × Bool)) :=
  if rowIsUndecodable entry then .error .undecodableEventData
  else .ok ((spec.member entry hint).toList.map fun member => (member,true))

def applyWrites (spec : FoldSpec) (hint : EventHint) (state : List (String × Bool)) (entries : List Entry) :
    Except Reason (List (String × Bool)) :=
  entries.foldlM (fun state entry => do return Dict.write state (← spec.plainWrite hint entry)) state

theorem applyWrites_writes (spec : FoldSpec) (hint : EventHint) (entries : List Entry) :
    spec.applyWrites hint [] entries = (gather (spec.plainWrite hint) entries).map (Dict.write []) := by
  apply foldlM_gather
  · exact fun _ _ => rfl
  · exact fun _ => rfl
  · exact fun _ _ _ => foldl_append

def fits (spec : FoldSpec) (entry : Entry) (hint : EventHint) : Bool :=
  matchesFilters (eventKeys entry.topics entry.dataWords hint.topicsToKeys hint.dataToKeys) spec.keyFilters

-- The hints a row of the topic is read with.
def readHints (spec : FoldSpec) (topic0 : String) : List EventHint :=
  match lookup topic0 spec.hintsByTopic with
  | none => []
  | some hints =>
    match topicFoldMode hints with
    | none => []
    | some (.payload valueHint) => [valueHint]
    | some .hint => hints

end FoldSpec

namespace EventIndex

def writeRows (index : EventIndex) (address topic0 : String) (block : Option Nat) : List Entry :=
  (index.selectRows address [Text.lower topic0] (rowCeiling (index.cursorState address topic0).1 block)).map (·.entry)

-- `fold_event_writes`: the hint's direction is not read.
def foldEventWrites (index : EventIndex) (address topic0 : String) (hint : EventHint) (keySources : List KeySource)
    (block : Option Nat) (tail : Option TailScanner) : EnumerationResult :=
  match foldSpec keySources [(Text.lower topic0,[hint])] with
  | none => partialResult .unresolvedEventKey
  | some spec =>
    match spec.applyWrites hint [] (index.writeRows address topic0 block) with
    | .error reason => partialResult reason
    | .ok state =>
      match index.cursorState address topic0 with
      | (some frontier,true) =>
        if cursorCoversBlock (some frontier) block then {members:=presentMembers state,lastIndexedBlock:=some frontier}
        else
          match completeWithTail tail address [Text.lower topic0] frontier block with
          | none =>
            { members:=presentMembers state,confidence:=.partly,partialReason:=some .cursorBehindBlock
              lastIndexedBlock:=some frontier }
          | some scan =>
            if scan.complete then
              match spec.applyWrites hint state (scan.logs.map (·.entry)) with
              | .error reason => partialResult reason
              | .ok state => {members:=presentMembers state,lastIndexedBlock:=block,scanWindow:=some scan.traceFields}
            else
              { members:=presentMembers state,confidence:=.partly,partialReason:=some .tailScanFailed
                lastIndexedBlock:=some frontier }
      | _ => {members:=presentMembers state,confidence:=.partly,partialReason:=some .noIndexCursor}

def historyRows (index : EventIndex) (spec : FoldSpec) (address : String) (block : Option Nat) : List Row :=
  let states := spec.topic0s.map (index.cursorState address)
  let warm := warmBlock states
  let behind := warm.isSome && !cursorCoversBlock warm block
  let ceiling := if behind then warm else rowCeiling (states.filterMap Prod.fst).max? block
  (index.selectRows address spec.topic0s ceiling).map storedRow

end EventIndex

section Answers
variable {index : EventIndex} {tail : Option TailScanner}

theorem foldEventWrites_applies
    (enumerable : (index.foldEventWrites address topic0 hint keySources block tail).confidence = .enumerable) :
    ∃ spec later state, foldSpec keySources [(Text.lower topic0,[hint])] = some spec ∧
      spec.applyWrites hint [] (index.writeRows address topic0 block ++ later) = .ok state ∧
      (index.foldEventWrites address topic0 hint keySources block tail).members = presentMembers state := by
  revert enumerable
  fun_cases EventIndex.foldEventWrites index address topic0 hint keySources block tail with
  | case3 spec made state applied =>
    intro _
    exact ⟨spec,[],state,made,by rw [append_nil]; exact applied,rfl⟩
  | case6 spec made state applied _ _ _ _ _ _ final more =>
    intro _
    exact ⟨spec,_,final,made,foldlM_append_ok applied more,rfl⟩
  | _ =>
    intro enumerable
    cases enumerable

theorem foldEventHistory_applies
    (enumerable : (index.foldEventHistory address hints keySources block tail).confidence = .enumerable) :
    ∃ spec later state, foldSpec keySources (eventHintsByTopic hints) = some spec ∧
      spec.applyRows [] (index.historyRows spec address block ++ later) = .ok state ∧
      (index.foldEventHistory address hints keySources block tail).members = presentMembers state := by
  revert enumerable
  fun_cases EventIndex.foldEventHistory index address hints keySources block tail with
  | case7 spec made _ _ _ _ _ _ state applied _ _ _ _ _ _ final more =>
    intro _
    exact ⟨spec,_,final,made,foldlM_append_ok applied more,rfl⟩
  | case9 spec made _ _ _ _ _ _ state applied =>
    intro _
    exact ⟨spec,[],state,made,by rw [append_nil]; exact applied,rfl⟩
  | _ =>
    intro enumerable
    cases enumerable

theorem FoldSpec.hint_applied {spec : FoldSpec} {member : String} {writes : List (String × Bool)}
    (wrote : spec.rowWrites row = .ok writes) (hinted : hint ∈ spec.readHints row.topic0)
    (decoded : spec.member row.entry hint = some member) : ∃ present, (member,present) ∈ writes := by
  have applied (mode : FoldMode) (hints : List EventHint) (inside : hint ∈ hints)
    (wrote : gather (spec.hintWrite row.entry mode) hints = .ok writes) : ∃ present, (member,present) ∈ writes := by
    obtain ⟨found,reads,within⟩ := gather_each wrote inside
    simp only [hintWrite,decoded] at reads
    split at reads
    · split at reads
      · cases reads
      · cases reads
        exact ⟨_,within mem_cons_self⟩
    · cases reads
      exact ⟨_,within mem_cons_self⟩
  simp only [rowWrites] at wrote
  simp only [readHints] at hinted
  split at wrote
  · simp_all
  · rename_i hints found
    simp only [found] at hinted
    split at wrote
    · simp_all
    · rename_i mode decided
      simp only [decided] at hinted
      split at wrote
      · cases wrote
      · split at wrote
        · exact applied _ _ hinted wrote
        · exact applied _ _ hinted wrote

-- Every matching log of an enumerable answer was applied exactly where each of
-- them has a word for the caller's key that decodes.
theorem matching_writes_applied_iff (index : EventIndex) (address : String) (keySources : List KeySource)
    (block : Option Nat)
    (tail : Option TailScanner) :
    (∀ topic0 hint, (index.foldEventWrites address topic0 hint keySources block tail).confidence = .enumerable →
      ∃ spec later writes, foldSpec keySources [(Text.lower topic0,[hint])] = some spec ∧
        gather (spec.plainWrite hint) (index.writeRows address topic0 block ++ later) = .ok writes ∧
        (index.foldEventWrites address topic0 hint keySources block tail).members = presentMembers
        (Dict.write [] writes) ∧
        ((∀ entry ∈ index.writeRows address topic0 block, spec.fits entry hint →
          ∃ member, spec.plainWrite hint entry = .ok [(member,true)]) ↔
          ∀ entry ∈ index.writeRows address topic0 block, spec.fits entry hint → (spec.member entry hint).isSome)) ∧
    ∀ hints, (index.foldEventHistory address hints keySources block tail).confidence = .enumerable →
      ∃ spec later writes, foldSpec keySources (eventHintsByTopic hints) = some spec ∧
        spec.writes (index.historyRows spec address block ++ later) = .ok writes ∧
        (index.foldEventHistory address hints keySources block tail).members = presentMembers (Dict.write [] writes) ∧
        ((∀ row ∈ index.historyRows spec address block, ∀ hint ∈ spec.readHints row.topic0, spec.fits row.entry hint →
          ∃ member present made, spec.member row.entry hint = some member ∧ spec.rowWrites row = .ok made ∧
            (member,present) ∈ made) ↔
          ∀ row ∈ index.historyRows spec address block, ∀ hint ∈ spec.readHints row.topic0, spec.fits row.entry hint →
            (spec.member row.entry hint).isSome) := by
  constructor
  · intro topic0 hint enumerable
    obtain ⟨spec,later,state,made,applied,members⟩ := foldEventWrites_applies enumerable
    rw [spec.applyWrites_writes] at applied
    obtain ⟨writes,read,is⟩ := ok_map.mp applied
    subst is
    refine ⟨spec,later,writes,made,read,members,?_⟩
    constructor
    · intro all entry inside matches_
      obtain ⟨member,wrote⟩ := all entry inside matches_
      unfold FoldSpec.plainWrite at wrote
      split at wrote
      · cases wrote
      · cases decoded : spec.member entry hint <;> simp [decoded] at wrote ⊢
    · intro all entry inside matches_
      obtain ⟨member,decoded⟩ := Option.isSome_iff_exists.mp (all entry inside matches_)
      obtain ⟨found,wrote,_⟩ := gather_each read (mem_append_left _ inside)
      refine ⟨member,?_⟩
      unfold FoldSpec.plainWrite at wrote ⊢
      split at wrote
      · cases wrote
      · rename_i whole
        rw [if_neg whole,decoded]
        rfl
  · intro hints enumerable
    obtain ⟨spec,later,state,made,applied,members⟩ := foldEventHistory_applies enumerable
    rw [spec.applyRows_writes] at applied
    obtain ⟨writes,read,is⟩ := ok_map.mp applied
    subst is
    refine ⟨spec,later,writes,made,read,members,?_⟩
    constructor
    · intro all row inside hint hinted matches_
      obtain ⟨member,_,_,decoded,_⟩ := all row inside hint hinted matches_
      rw [decoded]
      rfl
    · intro all row inside hint hinted matches_
      obtain ⟨member,decoded⟩ := Option.isSome_iff_exists.mp (all row inside hint hinted matches_)
      obtain ⟨found,wrote,_⟩ := gather_each read (mem_append_left _ inside)
      obtain ⟨present,there⟩ := FoldSpec.hint_applied wrote hinted decoded
      exact ⟨member,present,found,decoded,wrote,there⟩

end Answers

-- The same event with its argument in the data: no topic holds the caller.
def unindexedGrant : EventIndex :=
  {aheadIndex with logs:=[{granted with entry:={granted.entry with topics:=["0xadd"]}}]}

theorem unindexed_grant_skipped :
    (unindexedGrant.foldEventHistory "0xa" grantHints callerKey (some 10) none).confidence = .enumerable ∧
    ∃ spec, foldSpec callerKey (eventHintsByTopic grantHints) = some spec ∧
    ∃ row ∈ unindexedGrant.historyRows spec "0xa" (some 10),
      ∃ hint ∈ spec.readHints row.topic0, spec.fits row.entry hint ∧ spec.rowWrites row = .ok [] := by
  refine ⟨by decide +kernel,_,rfl,storedRow {granted with entry:={granted.entry with topics:=["0xadd"]}},
    by decide +kernel,
    {topic0:=some "0xadd",direction:=some .add,topicsToKeys:=[(1,0)]},
      by decide +kernel,by decide +kernel,by decide +kernel⟩

end Psat.Events
