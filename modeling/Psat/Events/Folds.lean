import Psat.Capability.Terms
import Psat.Events.Index
import Psat.Events.Words
import Psat.General.Dict

namespace Psat.Events
open Psat.General
open Psat.Capability (CapabilityConfidence)
open Psat.Indexer (Entry FetchedEventLog IndexedEventLog)

def cursorCoversBlock (cursorBlock block : Option Nat) : Bool :=
  match cursorBlock,block with
  | some height,some block => decide (block ≤ height)
  | _,_ => false

-- The index frontier bounds the row scan; the pinned block only gates exactness.
def rowCeiling (frontierBlock block : Option Nat) : Option Nat :=
  match frontierBlock with
  | none => block
  | some frontier => some frontier

def completeWithTail (tail : Option TailScanner) (address : String) (topic0s : List String) (frontier : Nat)
    (block : Option Nat) : Option TailScan :=
  match tail,block with
  | some tail,some block => some (tail address topic0s frontier block)
  | _,_ => none

structure ScanWindow where
  scanFromBlock : Nat
  scanToBlock : Nat
deriving DecidableEq

def TailScan.traceFields (scan : TailScan) : ScanWindow := ⟨scan.fromBlock,scan.toBlock⟩

structure EnumerationResult where
  members : List String := []
  confidence : CapabilityConfidence := .enumerable
  partialReason : Option Reason := none
  lastIndexedBlock : Option Nat := none
  scanWindow : Option ScanWindow := none
deriving DecidableEq

def groupByTopic (hints : List EventHint) (topicOf : EventHint → Option String) : List (String × List EventHint) :=
  hints.foldl (fun grouped hint =>
    match topicOf hint with
    | none => grouped
    | some topic0 => Dict.put topic0 ((List.lookup topic0 grouped).getD [] ++ [hint]) grouped) []

def eventHintsByTopic (hints : List EventHint) : List (String × List EventHint) :=
  groupByTopic hints fun hint => if hint.direction.isSome then hint.topic0.bind normalizeTopic else none

def valueHintsByTopic (hints : List EventHint) : List (String × List EventHint) :=
  groupByTopic hints fun hint => hint.topic0.bind normalizeTopic

-- How a topic's rows are read: every hint's direction, or the value word of one.
inductive FoldMode
  | hint
  | payload (valueHint : EventHint)

-- `none` is the undecidable conflict: both directions and no value word.
def topicFoldMode (hints : List EventHint) : Option FoldMode :=
  if (Ordered.unique (hints.map EventHint.direction)).length ≤ 1 then some .hint
  else (hints.find? fun hint => hint.valuePosition.isSome).map .payload

def payloadMembership (topics dataWords : List String) (valueHint : EventHint) : Option Bool := do
  let position ← valueHint.valuePosition
  let word ← wordAtEventArg topics dataWords position valueHint
  let value ← parseHex word
  return value != 0

structure FoldSpec where
  memberKey : Nat
  keyFilters : List (Int × String)
  hintsByTopic : List (String × List EventHint)

namespace FoldSpec

-- The member a hint reads off a row, when the row is about the filtered keys.
def member (spec : FoldSpec) (entry : Entry) (hint : EventHint) : Option String :=
  let keys := eventKeys entry.topics entry.dataWords hint.topicsToKeys hint.dataToKeys
  if matchesFilters keys spec.keyFilters then wordToAddress (List.lookup (spec.memberKey : Int) keys) else none

-- One hint's write: nothing, or a member and whether it is in.
def hintWrite (spec : FoldSpec) (entry : Entry) (mode : FoldMode) (hint : EventHint) :
    Except Reason (List (String × Bool)) :=
  match spec.member entry hint with
  | none => .ok []
  | some member =>
    match mode with
    | .payload _ =>
      match payloadMembership entry.topics entry.dataWords hint with
      | none => .error .ambiguousEventDirection
      | some present => .ok [(member,present)]
    | .hint => .ok [(member,decide (hint.direction = some .add))]

def applyHints (spec : FoldSpec) (entry : Entry) (mode : FoldMode) (hints : List EventHint)
    (state : List (String × Bool)) :
    Except Reason (List (String × Bool)) :=
  hints.foldlM (fun state hint => do
    let writes ← spec.hintWrite entry mode hint
    return Dict.write state writes) state

def applyRow (spec : FoldSpec) (state : List (String × Bool)) (row : Row) : Except Reason (List (String × Bool)) :=
  match List.lookup row.topic0 spec.hintsByTopic with
  | none => .ok state
  | some hints =>
    match topicFoldMode hints with
    | none => .ok state
    | some mode =>
      if rowIsUndecodable row.entry then .error .undecodableEventData
      else
        match mode with
        | .payload valueHint => spec.applyHints row.entry mode [valueHint] state
        | .hint => spec.applyHints row.entry mode hints state

def applyRows (spec : FoldSpec) (state : List (String × Bool)) (rows : List Row) : Except Reason
    (List (String × Bool)) :=
  rows.foldlM spec.applyRow state

end FoldSpec

def presentMembers (state : List (String × Bool)) : List String :=
  Sorted.sortBy id ((state.filter Prod.snd).map Prod.fst)

def partialResult (reason : Reason) : EnumerationResult :=
  {members:=[],confidence:=.partly,partialReason:=some reason}

def foldSpec (keySources : List KeySource) (hintsByTopic : List (String × List EventHint)) : Option FoldSpec := do
  let memberKey ← callerKeyIndex keySources
  let keyFilters ← constantKeyFilters keySources memberKey
  if hintsByTopic.isEmpty then none else some {memberKey,keyFilters,hintsByTopic}

def FoldSpec.topic0s (spec : FoldSpec) : List String := Sorted.sortBy id (spec.hintsByTopic.map Prod.fst)

namespace EventIndex

-- The least advanced cursor when every topic's backfill is complete.
def warmBlock (states : List (Option Nat × Bool)) : Option Nat :=
  let completeBlocks := states.filterMap fun state => if state.2 then state.1 else none
  if completeBlocks.length = states.length then completeBlocks.min? else none

def foldEventHistory (index : EventIndex) (address : String) (eventHints : List EventHint) (keySources : List KeySource)
    (block : Option Nat) (tail : Option TailScanner) : EnumerationResult :=
  match foldSpec keySources (eventHintsByTopic eventHints) with
  | none => partialResult .unresolvedEventKey
  | some spec =>
    if spec.hintsByTopic.any fun topic => (topicFoldMode topic.2).isNone then partialResult .ambiguousEventDirection
    else
      let topic0s := spec.topic0s
      let states := topic0s.map (index.cursorState address)
      let completeBlocks := states.filterMap fun state => if state.2 then state.1 else none
      let warm := warmBlock states
      let behind := warm.isSome && !cursorCoversBlock warm block
      let ceiling := if behind then warm else rowCeiling (states.filterMap Prod.fst).max? block
      match spec.applyRows [] ((index.selectRows address topic0s ceiling).map storedRow) with
      | .error reason => partialResult reason
      | .ok state =>
        match warm with
        | none =>
          { members:=presentMembers state,confidence:=.partly,partialReason:=some .noIndexCursor
            lastIndexedBlock:=completeBlocks.min? }
        | some frontier =>
          if behind then
            match completeWithTail tail address topic0s frontier block with
            | none =>
              { members:=presentMembers state,confidence:=.partly,partialReason:=some .cursorBehindBlock
                lastIndexedBlock:=some frontier }
            | some scan =>
              if scan.complete then
                match spec.applyRows state (scan.logs.map fetchedRow) with
                | .error reason => partialResult reason
                | .ok state =>
                  {members:=presentMembers state,lastIndexedBlock:=block,scanWindow:=some scan.traceFields}
              else
                { members:=presentMembers state,confidence:=.partly,partialReason:=some .tailScanFailed
                  lastIndexedBlock:=some frontier }
          else {members:=presentMembers state,lastIndexedBlock:=some frontier}

end EventIndex

def zeroWord : String := String.ofList ('0' :: 'x' :: List.replicate 64 '0')

structure ValueEntry where
  key : String
  valueHex : String
  lastBlock : Nat
deriving DecidableEq

structure ValueFoldResult where
  entries : List ValueEntry := []
  complete : Bool := false
  partialReason : Option Reason := none
  lastIndexedBlock : Option Nat := none
  scanWindow : Option ScanWindow := none
deriving DecidableEq

def valueWriterSpecFoldable (hint : EventHint) : Bool := hint.valuePosition.isSome || hint.direction = some .remove

def valueReading (hint : EventHint) : Option Int × List (Int × Int) × List (Int × Int) :=
  (hint.valuePosition,Sorted.sortBy Prod.fst hint.topicsToKeys,Sorted.sortBy Prod.fst hint.dataToKeys)

-- The caller's argument position, or the hints' maps under the constant filters.
inductive ValueKeys
  | position (argument : Int)
  | mapped (memberKey : Nat) (keyFilters : List (Int × String))

structure ValueSpec where
  keys : ValueKeys
  hintsByTopic : List (String × List EventHint)

namespace ValueSpec

-- `none` is a row about other keys, `some none` a member that cannot be read.
def member (spec : ValueSpec) (entry : Entry) (hint : EventHint) : Option (Option String) :=
  match spec.keys with
  | .position argument => some (wordToAddress (wordAtEventArg entry.topics entry.dataWords argument hint))
  | .mapped memberKey keyFilters =>
    let keys := eventKeys entry.topics entry.dataWords hint.topicsToKeys hint.dataToKeys
    if matchesFilters keys keyFilters then some (wordToAddress (List.lookup (memberKey : Int) keys)) else none

def value (entry : Entry) (hint : EventHint) : Option String :=
  match hint.valuePosition with
  | none => some zeroWord
  | some position => wordAtEventArg entry.topics entry.dataWords position hint

-- One hint's reading of a row: nothing, or a member with its value.
def hintReading (spec : ValueSpec) (entry : Entry) (hint : EventHint) : Except Reason (List (String × String)) :=
  match spec.member entry hint with
  | none => .ok []
  | some member =>
    match member,value entry hint with
    | some member,some value => .ok [(member,value)]
    | _,_ => .error .undecodableEventData

abbrev State := List (String × String × Place)

-- A later log replaces the value, an equally late one does not.
def record (at_ : Place) (state : State) (reading : String × String) : State :=
  match List.lookup reading.1 state with
  | none => Dict.put reading.1 (reading.2,at_) state
  | some prior => if prior.2 < at_ then Dict.put reading.1 (reading.2,at_) state else state

def applyHints (spec : ValueSpec) (entry : Entry) (hints : List EventHint) (state : State) : Except Reason State :=
  hints.foldlM (fun state hint => do
    let readings ← spec.hintReading entry hint
    return readings.foldl (record (place entry)) state) state

def applyRow (spec : ValueSpec) (state : State) (row : Row) : Except Reason State :=
  match List.lookup row.topic0 spec.hintsByTopic with
  | none => .ok state
  | some hints =>
    if rowIsUndecodable row.entry then .error .undecodableEventData else spec.applyHints row.entry hints state

def applyRows (spec : ValueSpec) (state : State) (rows : List Row) : Except Reason State :=
  rows.foldlM spec.applyRow state

def topic0s (spec : ValueSpec) : List String := Sorted.sortBy id (spec.hintsByTopic.map Prod.fst)

end ValueSpec

def valueEntries (state : ValueSpec.State) : List ValueEntry :=
  state.map fun entry => ⟨entry.1,entry.2.1,(ofLex entry.2.2).1⟩

def valueKeys (keySources : List KeySource) (foldKeyPosition : Option Int) : Option ValueKeys :=
  match foldKeyPosition with
  | some argument => some (.position argument)
  | none => do
    let memberKey ← callerKeyIndex keySources
    let keyFilters ← constantKeyFilters keySources memberKey
    return .mapped memberKey keyFilters

def partialValues (reason : Reason) : ValueFoldResult := {partialReason:=some reason}

namespace EventIndex

-- Rows are read before the tail, and a row without decodable data stops both.
def readValues (index : EventIndex) (spec : ValueSpec) (address : String) (ceiling : Nat) :
    Except Reason ValueSpec.State :=
  do
  let rows ← index.iterEventRows address spec.topic0s (some ceiling)
  spec.applyRows [] (rows.map storedRow)

def foldEventValues (index : EventIndex) (address : String) (valueHints : List EventHint) (keySources : List KeySource)
    (foldKeyPosition : Option Int) (block : Option Nat) (tail : Option TailScanner) : ValueFoldResult :=
  match valueKeys keySources foldKeyPosition with
  | none => partialValues .unresolvedEventKey
  | some keys =>
    if ¬ valueHints.all valueWriterSpecFoldable then partialValues .unfoldableWriterEvent
    else
      let spec : ValueSpec := {keys,hintsByTopic:=valueHintsByTopic valueHints}
      if spec.hintsByTopic.isEmpty then partialValues .unresolvedEventKey
      else if spec.hintsByTopic.any fun topic => 1 < (Ordered.unique (topic.2.map valueReading)).length then
        partialValues .ambiguousEventDirection
      else
        let states := spec.topic0s.map (index.cursorState address)
        match warmBlock states,(states.filterMap Prod.fst).max? with
        | some warm,some frontier =>
          let behind := !cursorCoversBlock (some warm) block
          match index.readValues spec address (if behind then warm else frontier) with
          | .error reason => partialValues reason
          | .ok state =>
            if behind then
              match completeWithTail tail address spec.topic0s warm block with
              | none => {entries:=valueEntries state,partialReason:=some .cursorBehindBlock,lastIndexedBlock:=some warm}
              | some scan =>
                if scan.complete then
                  match spec.applyRows state (scan.logs.map fetchedRow) with
                  | .error reason => partialValues reason
                  | .ok state =>
                    { entries:=valueEntries state,complete:=true,lastIndexedBlock:=block
                      scanWindow:=some scan.traceFields }
                else {entries:=valueEntries state,partialReason:=some .tailScanFailed,lastIndexedBlock:=some warm}
            else {entries:=valueEntries state,complete:=true,lastIndexedBlock:=some warm}
        | _,_ => partialValues .noIndexCursor

end EventIndex

structure IndexedLogs where
  logs : List Row := []
  complete : Bool
  reason : Option Reason := none
  lastIndexedBlock : Option Nat := none

-- The error is the raised `UndecodableEventRow`.
def EventIndex.logsThroughBlock (index : EventIndex) (address : String) (topic0s : List String) (block : Option Nat)
    (tail : Option TailScanner) : Except Reason IndexedLogs :=
  let topics := Sorted.sortedSet (topic0s.map Text.lower)
  let states := topics.map (index.cursorState address)
  match warmBlock states,(states.filterMap Prod.fst).max? with
  | some warm,some frontier =>
    match block with
    | none => .ok {complete:=false,reason:=some .unpinnedBlock}
    | some block =>
      if warm < block then do
        let rows ← index.iterEventRows address topics (some warm)
        match tail.map fun tail => tail (Text.lower address) topics warm block with
        | none => .ok {complete:=false,reason:=some .cursorBehindBlock,lastIndexedBlock:=some warm}
        | some scan =>
          if scan.complete then
            if scan.logs.any fun log => rowIsUndecodable log.entry then .error .undecodableEventData
            else
              .ok {logs:=rows.map storedRow ++ scan.logs.map fetchedRow,complete:=true,lastIndexedBlock:=some block}
          else .ok {complete:=false,reason:=some (scan.reason.getD .cursorBehindBlock),lastIndexedBlock:=some warm}
      else do
        let rows ← index.iterEventRows address topics (some frontier)
        return {logs:=rows.map storedRow,complete:=true,lastIndexedBlock:=some warm}
  | _,_ => .ok {complete:=false,reason:=some .noIndexCursor}

end Psat.Events
