import Mathlib.Data.Prod.Lex
import Mathlib.Data.String.Basic
import Psat.General.Outcome
import Psat.General.Sorted
import Psat.Indexer.Store

namespace Psat.Events
open Psat.General List Sorted
open Psat.Indexer (Entry FetchedEventLog IndexedEventLog IndexedEventCursor Key)
open Text (lower)

inductive EnrollmentBasis
  | predicateTreeHint
  | trackedTopicsAsserted
  | notDetermined
  | other (text : String)
deriving DecidableEq

inductive FirstIndexedBasis
  | creationBlockMinusOne
  | explicitSeed
  | notDetermined
deriving DecidableEq

structure EventCursor extends IndexedEventCursor where
  enrollmentBasis : Option EnrollmentBasis := none
  firstIndexedBlockBasis : Option FirstIndexedBasis := none
deriving DecidableEq

-- What the resolver reads: one chain's cursors and stored logs.
structure EventIndex where
  cursors : List EventCursor := []
  logs : List IndexedEventLog := []

-- Every reason an answer is less than complete.
inductive Reason
  | unresolvedEventKey
  | ambiguousEventDirection
  | undecodableEventData
  | unfoldableWriterEvent
  | noIndexCursor
  | unpinnedBlock
  | cursorBehindBlock
  | tailScanFailed
  | tailSpanExceeded
deriving DecidableEq

def enrollmentBasisPermitsExactness (basis : Option EnrollmentBasis) : Bool :=
  basis = none ∨ basis = some .predicateTreeHint

def cursorPermitsExactness (enrollment : Option EnrollmentBasis) (first : Option FirstIndexedBasis) : Bool :=
  enrollmentBasisPermitsExactness enrollment && first = some .creationBlockMinusOne

abbrev Place := ℕ ×ₗ ℕ ×ₗ ℕ

def place (entry : Entry) : Place := toLex (entry.blockNumber,toLex (entry.transactionIndex,entry.logIndex))

def rowIsUndecodable (entry : Entry) : Bool := entry.dataHex.isSome

namespace EventIndex

def cursorState (index : EventIndex) (address topic0 : String) : Option Nat × Bool :=
  match index.cursors.find? fun cursor => cursor.key = ⟨lower address,lower topic0⟩ with
  | none => (none,false)
  | some cursor =>
    if cursorPermitsExactness cursor.enrollmentBasis cursor.firstIndexedBlockBasis then
      (some cursor.lastIndexedBlock,cursor.backfillComplete)
    else (some cursor.lastIndexedBlock,false)

-- The query every reader runs, in chain order.
def selectRows (index : EventIndex) (address : String) (topic0s : List String) (ceiling : Option Nat) :
    List IndexedEventLog :=
  sortBy (fun log => place log.entry) (index.logs.filter fun log =>
    log.key.address = lower address ∧ log.key.topic0 ∈ topic0s ∧ ∀ block ∈ ceiling, log.entry.blockNumber ≤ block)

-- A row whose data cannot be decoded is raised, never handed back.
def iterEventRows (index : EventIndex) (address : String) (topic0s : List String) (block : Option Nat) :
    Except Reason (List IndexedEventLog) :=
  let lowered := topic0s.map lower
  if lowered.isEmpty then .ok []
  else
    let rows := index.selectRows address lowered block
    if rows.any fun row => rowIsUndecodable row.entry then .error .undecodableEventData else .ok rows

def minIndexedBlock (index : EventIndex) (address : String) (topic0s : List String) : Option Nat :=
  let states := topic0s.map (index.cursorState address)
  if states.any fun state => state.1.isNone || !state.2 then none
  else (states.filterMap Prod.fst).min?

end EventIndex

structure TailScan where
  complete : Bool
  fromBlock : Nat
  toBlock : Nat
  logs : List FetchedEventLog := []
  reason : Option Reason := none

-- (event address, topics, frontier, block)
abbrev TailScanner := String → List String → Nat → Nat → TailScan

def tailMaxSpan : Nat := 50000

-- The node's log reader over an inclusive range; nothing when any page is refused or malformed.
def scanEventTail (visitLogs : String → List String → Nat → Nat → Option (List FetchedEventLog)) : TailScanner :=
  fun address topic0s frontier block =>
    let fromBlock := frontier + 1
    let topics := sortedSet (topic0s.map lower)
    if block < fromBlock then {complete:=true,fromBlock,toBlock:=block}
    else if topics.isEmpty then {complete:=false,fromBlock,toBlock:=block,reason:=some .tailScanFailed}
    else if tailMaxSpan <
      block - frontier then {complete:=false,fromBlock,toBlock:=block,reason:=some .tailSpanExceeded}
    else
      match visitLogs (lower address) topics fromBlock block with
      | none => {complete:=false,fromBlock,toBlock:=block,reason:=some .tailScanFailed}
      | some logs => {complete:=true,fromBlock,toBlock:=block,logs:=sortBy (fun log => place log.entry) logs}

-- A stored or freshly read log, as the folds see it.
structure Row where
  topic0 : String
  entry : Entry
deriving DecidableEq

def storedRow (log : IndexedEventLog) : Row := ⟨lower log.key.topic0,log.entry⟩

def fetchedRow (log : FetchedEventLog) : Row := ⟨log.entry.topic0.getD "",log.entry⟩

-- The true history: every log the chain has, in chain order.
structure History where
  logs : List IndexedEventLog
  ordered : logs.Pairwise fun a b => place a.entry < place b.entry
  named : ∀ log ∈ logs, log.entry.topic0 = some log.key.topic0

namespace History

def covers (address : String) (topic0s : List String) (log : IndexedEventLog) : Bool :=
  log.key.address = lower address ∧ log.key.topic0 ∈ topic0s

-- The history of some topics of an address, each topic cut at its own height.
def through (history : History) (address : String) (topic0s : List String) (cut : String → Nat) :
    List IndexedEventLog :=
  history.logs.filter fun log => covers address topic0s log && decide (log.entry.blockNumber ≤ cut log.key.topic0)

def between (history : History) (address : String) (topic0s : List String) (frontier block : Nat) :
    List IndexedEventLog :=
  history.logs.filter fun log => covers address topic0s log &&
    (decide (frontier < log.entry.blockNumber) && decide (log.entry.blockNumber ≤ block))

end History

-- The index holds each enrolled topic's logs up to that topic's own cursor.
structure EventIndex.Holds (index : EventIndex) (history : History) : Prop where
  once : index.logs.Nodup
  rows : ∀ cursor ∈ index.cursors, cursorPermitsExactness cursor.enrollmentBasis cursor.firstIndexedBlockBasis = true →
    ∀ entry, ⟨cursor.key,entry⟩ ∈ index.logs ↔
    ⟨cursor.key,entry⟩ ∈ history.logs ∧ entry.blockNumber ≤ cursor.lastIndexedBlock

def Lowered (topic0s : List String) : Prop := ∀ topic ∈ topic0s, lower topic = topic

-- A completed tail scan holds every log of its range, in chain order.
def TailSound (history : History) (tail : TailScanner) : Prop :=
  ∀ address topic0s frontier block, Lowered topic0s → (tail address topic0s frontier block).complete = true →
    (tail address topic0s frontier block).toBlock = block ∧
    (tail address topic0s frontier block).logs.map fetchedRow =
        (history.between address topic0s frontier block).map storedRow

section Reads
variable {index : EventIndex}

theorem cursorState_complete (found : index.cursorState address topic = (some height,true)) :
    ∃ cursor ∈ index.cursors, cursorPermitsExactness cursor.enrollmentBasis cursor.firstIndexedBlockBasis = true ∧
      cursor.key = ⟨lower address,lower topic⟩ ∧ cursor.lastIndexedBlock = height := by
  unfold EventIndex.cursorState at found
  split at found
  · cases found
  · rename_i cursor present
    have key := find?_some present
    simp only [decide_eq_true_eq] at key
    split at found
    · rename_i permits
      simp only [Prod.mk.injEq,Option.some.injEq] at found
      exact ⟨cursor,mem_of_find?_eq_some present,permits,key,found.1⟩
    · cases found

theorem History.lowered (history : History) (log : IndexedEventLog) (member : log ∈ history.logs) :
    lower log.key.topic0 = log.key.topic0 := by
  have named := history.named log member
  unfold Entry.topic0 at named
  cases first : log.entry.topics.head? with
  | none => simp [first] at named
  | some topic =>
    simp only [first,Option.map_some,Option.some.injEq] at named
    rw [← named,Text.lower_lower]

theorem selectRows_eq (holds : index.Holds history) (lowered : Lowered topic0s) (height : String → Nat)
    (cursors : ∀ topic ∈ topic0s, index.cursorState address topic = (some (height topic),true)) (ceiling : Nat) :
    index.selectRows address topic0s (some ceiling) = history.through address topic0s fun topic => min ceiling
    (height topic) := by
  apply sortBy_eq
  · exact history.ordered.filter _
  · exact holds.once.filter _
  · rintro ⟨⟨emitter,topic⟩,entry⟩
    simp only [History.through,History.covers,mem_filter,Option.mem_def,Option.some.injEq,forall_eq',
      Bool.decide_and,Bool.and_eq_true,decide_eq_true_eq,le_min_iff]
    by_cases wanted : emitter = lower address ∧ topic ∈ topic0s
    · obtain ⟨rfl,inside⟩ := wanted
      obtain ⟨cursor,present,permits,key,last⟩ := cursorState_complete (cursors topic inside)
      rw [lowered topic inside] at key
      have rows := holds.rows cursor present permits entry
      rw [key,last] at rows
      tauto
    · tauto

theorem History.through_between (history : History) (forward : low ≤ high) :
    (history.through address topic0s fun _ => low) ++ history.between address topic0s low high =
      history.through address topic0s fun _ => high := by
  apply filter_cut (fun log : IndexedEventLog => log.entry.blockNumber)
  · refine history.ordered.imp ?_
    intro a b below
    rcases Prod.Lex.lt_iff.mp below with less | ⟨same,_⟩
    · exact Nat.le_of_lt less
    · exact Nat.le_of_eq same
  · exact forward

-- The node's reader over an inclusive range: all of the range's logs, once.
def ReaderSound (history : History) (visitLogs : String → List String → Nat → Nat → Option (List FetchedEventLog)) :
    Prop :=
  ∀ address topics fromBlock toBlock logs, visitLogs address topics fromBlock toBlock = some logs → logs.Nodup ∧
    ∀ log, log ∈ logs ↔ log.address = "" ∧ ∃ topic ∈ topics, ⟨⟨address,topic⟩,log.entry⟩ ∈ history.logs ∧
      fromBlock ≤ log.entry.blockNumber ∧ log.entry.blockNumber ≤ toBlock

theorem ReaderSound.between (sound : ReaderSound history visitLogs)
    (read : visitLogs (lower address) (sortedSet topic0s) (front + 1) block = some logs) :
    (sortBy (fun log : FetchedEventLog => place log.entry) logs).map fetchedRow =
      (history.between address topic0s front block).map storedRow := by
  obtain ⟨once,members⟩ := sound _ _ _ _ _ read
  have back : sortBy (fun log : FetchedEventLog => place log.entry) logs =
    (history.between address topic0s front block).map fun log => {entry:=log.entry} := by
    apply sortBy_eq
    · rw [pairwise_map]
      exact history.ordered.filter _
    · exact once
    · rintro ⟨entry,emitter⟩
      rw [members]
      simp only [History.between,History.covers,mem_map,mem_filter,mem_sortedSet,Bool.decide_and,
        Bool.and_eq_true,decide_eq_true_eq,FetchedEventLog.mk.injEq]
      constructor
      · rintro ⟨rfl,topic,wanted,present,low,high⟩
        exact ⟨_,⟨present,⟨rfl,wanted⟩,Nat.lt_of_succ_le low,high⟩,rfl,rfl⟩
      · rintro ⟨⟨⟨emitter',topic⟩,entry'⟩,⟨present,⟨rfl,wanted⟩,low,high⟩,rfl,rfl⟩
        exact ⟨rfl,topic,wanted,present,Nat.succ_le_of_lt low,high⟩
  rw [back,map_map]
  apply map_congr_left
  intro log member
  have present := mem_of_mem_filter member
  simp [fetchedRow,storedRow,history.named log present,history.lowered log present]

theorem scanEventTail_sound (sound : ReaderSound history visitLogs) : TailSound history (scanEventTail visitLogs) := by
  intro address topic0s frontier block lowered complete
  have same : topic0s.map lower = topic0s := (map_congr_left lowered).trans (map_id _)
  unfold scanEventTail at complete ⊢
  simp only [same] at complete ⊢
  split at complete
  · rename_i none
    have empty : history.between address topic0s frontier block = [] := by
      rw [History.between,filter_eq_nil_iff]
      intro log _ inside
      simp only [Bool.and_eq_true,decide_eq_true_eq] at inside
      omega
    rw [if_pos none,empty]
    exact ⟨rfl,rfl⟩
  · rename_i range
    rw [if_neg range]
    split at complete
    · cases complete
    · rename_i named
      rw [if_neg named]
      split at complete
      · cases complete
      · rename_i short
        rw [if_neg short]
        split at complete
        · cases complete
        · rename_i logs read
          exact ⟨rfl,sound.between read⟩

end Reads

end Psat.Events
