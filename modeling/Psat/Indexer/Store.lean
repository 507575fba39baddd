import Mathlib.Algebra.GroupWithZero.Nat
import Psat.General.Blocks
import Psat.Text

namespace Psat.Indexer
open Psat.General

-- One event log as fetched and as stored, without its emitter.
structure Entry where
  txHash : String
  logIndex : Nat
  blockNumber : Nat
  blockHash : String
  transactionIndex : Nat
  topics : List String
  dataWords : List String
  dataHex : Option String := none
deriving DecidableEq

def Entry.topic0 (entry : Entry) : Option String := entry.topics.head?.map Text.lower

-- The emitter is set for requests over several addresses and empty otherwise.
structure FetchedEventLog where
  entry : Entry
  address : String := ""
deriving DecidableEq

def FetchedEventLog.blockNumber (log : FetchedEventLog) : Nat := log.entry.blockNumber

structure Key where
  address : String
  topic0 : String
deriving DecidableEq

structure IndexedEventLog where
  key : Key
  entry : Entry
deriving DecidableEq

structure IndexedEventCursor where
  key : Key
  lastIndexedBlock : Nat
  lastIndexedBlockHash : Option String := none
  backfillComplete : Bool := false
  enrolledSeedBlock : Nat
deriving DecidableEq

-- One chain's cursors, in the order every query returns them, and its logs.
structure Store where
  cursors : List IndexedEventCursor := []
  logs : List IndexedEventLog := []
deriving DecidableEq

def enrollEventCursor (key : Key) (startBlock : Nat) : IndexedEventCursor :=
  {key,lastIndexedBlock:=startBlock,enrolledSeedBlock:=startBlock}

-- What a plan remembers of a cursor and a write compares.
structure Position where
  key : Key
  last : Nat
  blockHash : Option String
deriving DecidableEq

def IndexedEventCursor.position (cursor : IndexedEventCursor) : Position :=
  ⟨cursor.key,cursor.lastIndexedBlock,cursor.lastIndexedBlockHash⟩

def Store.group (store : Store) (addresses : List String) : List IndexedEventCursor :=
  store.cursors.filter fun cursor => cursor.key.address ∈ addresses

def Store.memberPositions (store : Store) (addresses : List String) : List Position :=
  (store.group addresses).map IndexedEventCursor.position

structure Rewind where
  toBlock : Nat
  blockHash : Option String
deriving DecidableEq

structure GroupPlan where
  addresses : List String
  members : List Position
  rewinds : List (String × Rewind)

-- The reorg check of one member: the first mismatch at an address decides.
def checkMember (target : Nat) (hashAt : Nat → Option String) (confirmationDepth : Nat)
    (rewinds : List (String × Rewind)) (member : Position) : List (String × Rewind) :=
  if (List.lookup member.key.address rewinds).isSome then rewinds
  else if member.last = 0 ∨ member.blockHash = none ∨ target ≤ member.last then rewinds
  else if hashAt member.last = none ∨ hashAt member.last = member.blockHash then rewinds
  else
    let rewindTo := member.last - confirmationDepth
    rewinds ++ [(member.key.address,⟨rewindTo,if rewindTo = 0 then none else hashAt rewindTo⟩)]

def planGroup (store : Store) (addresses : List String) (target : Nat) (hashAt : Nat → Option String)
    (confirmationDepth : Nat) : GroupPlan :=
  let members := store.memberPositions addresses
  {addresses,members,rewinds:=members.foldl (checkMember target hashAt confirmationDepth) []}

def rewindCursor (rewinds : List (String × Rewind)) (cursor : IndexedEventCursor) : IndexedEventCursor :=
  match List.lookup cursor.key.address rewinds with
  | some rewind =>
    if rewind.toBlock < cursor.lastIndexedBlock then
      {cursor with
         lastIndexedBlock:=rewind.toBlock
         lastIndexedBlockHash:=rewind.blockHash
         backfillComplete:=false}
    else cursor
  | none => cursor

def rewindKeeps (rewinds : List (String × Rewind)) (log : IndexedEventLog) : Bool :=
  match List.lookup log.key.address rewinds with
  | some rewind => decide (log.entry.blockNumber ≤ rewind.toBlock)
  | none => true

def applyRewinds (rewinds : List (String × Rewind)) (store : Store) : Store where
  cursors := store.cursors.map (rewindCursor rewinds)
  logs := store.logs.filter (rewindKeeps rewinds)

-- Every way a visit ends with nothing more written.
inductive Failure
  | cursorsMoved
  | emitterOutsideRequest
  | topicNotRequested
  | fringeHashNotRead
deriving DecidableEq

-- Each log of a slice under its emitter and first topic.
def bucketLogs (singleAddress : Option String) (addresses : List String) :
    List FetchedEventLog → Except Failure (List IndexedEventLog)
  | [] => .ok []
  | log :: rest =>
    match log.entry.topic0 with
    | none => bucketLogs singleAddress addresses rest
    | some topic0 =>
      let emitter := singleAddress.getD (Text.lower log.address)
      if emitter ∈ addresses then do
        let buckets ← bucketLogs singleAddress addresses rest
        return ⟨⟨emitter,topic0⟩,log.entry⟩ :: buckets
      else .error .emitterOutsideRequest

def sameIdentity (a b : IndexedEventLog) : Bool :=
  a.key == b.key && a.entry.txHash == b.entry.txHash && a.entry.logIndex == b.entry.logIndex

-- `ON CONFLICT DO NOTHING` on the primary key.
def insertLog (logs : List IndexedEventLog) (log : IndexedEventLog) : List IndexedEventLog :=
  if logs.any (sameIdentity log) then logs else logs ++ [log]

def bulkInsertLogs (logs new : List IndexedEventLog) : List IndexedEventLog := new.foldl insertLog logs

structure PrefixWrite where
  addresses : List String
  topics : List String
  target : Nat
  prefixEnd : Nat
  buckets : List IndexedEventLog
  stamp : Nat → Except Failure (Option String)

def PrefixWrite.memberLogs (write : PrefixWrite) (cursor : IndexedEventCursor) : List IndexedEventLog :=
  write.buckets.filter fun log => log.key == cursor.key && decide (cursor.lastIndexedBlock < log.entry.blockNumber)

def advanceCursor (write : PrefixWrite) (cursor : IndexedEventCursor) :
    Except Failure (IndexedEventCursor × List IndexedEventLog) :=
  if cursor.lastIndexedBlock < write.prefixEnd then
    if cursor.key.topic0 ∈ write.topics then
      .ok ({cursor with lastIndexedBlock:=write.prefixEnd,lastIndexedBlockHash:=none},write.memberLogs cursor)
    else .error .topicNotRequested
  else .ok (cursor,[])

-- A cursor at the confirmed target is complete and carries its fringe stamp.
def settleCursor (write : PrefixWrite) (cursor : IndexedEventCursor) : Except Failure IndexedEventCursor :=
  if write.target ≤ cursor.lastIndexedBlock then
    match cursor.lastIndexedBlockHash with
    | some _ => .ok {cursor with backfillComplete:=true}
    | none => do
      let hash ← write.stamp cursor.lastIndexedBlock
      return {cursor with backfillComplete:=true,lastIndexedBlockHash:=hash}
  else .ok cursor

def writeCursors (write : PrefixWrite) (logs : List IndexedEventLog) :
    List IndexedEventCursor → Except Failure Store
  | [] => .ok {cursors:=[],logs}
  | cursor :: rest =>
    if cursor.key.address ∈ write.addresses then do
      let (advanced,memberLogs) ← advanceCursor write cursor
      let settled ← settleCursor write advanced
      let written ← writeCursors write (bulkInsertLogs logs memberLogs) rest
      return {written with cursors:=settled :: written.cursors}
    else do
      let written ← writeCursors write logs rest
      return {written with cursors:=cursor :: written.cursors}

-- Every cursor stands where the plan, or this visit's last commit, left it.
def lockMembers (addresses : List String) (expected : List Position) (store : Store) : Except Failure Unit :=
  if store.memberPositions addresses = expected then .ok () else .error .cursorsMoved

def markWarm (addresses : List String) (store : Store) : Store :=
  {store with cursors:=store.cursors.map fun cursor =>
      if cursor.key.address ∈ addresses then {cursor with backfillComplete:=true} else cursor}

def logBytes (log : FetchedEventLog) : Nat :=
  256 + ((log.entry.topics ++ log.entry.dataWords).map fun word => word.length + 4).sum

-- The loop of `_write_prefixes` over whole blocks.
def prefixLoop (windowEnd maxRows maxBytes : Nat) (offset payloadBytes blockStart : Nat) :
    List (List FetchedEventLog) → List (Nat × Nat × Nat)
  | [] => [(offset,blockStart,windowEnd)]
  | block :: rest =>
    let blockEnd := blockStart + block.length
    let blockBytes := (block.map logBytes).sum
    let number := (block.head?.map FetchedEventLog.blockNumber).getD 0
    if offset < blockStart ∧ (max 1 maxRows < blockEnd - offset ∨ max 1 maxBytes < payloadBytes + blockBytes) then
      (offset,blockStart,number - 1) :: prefixLoop windowEnd maxRows maxBytes blockStart blockBytes blockEnd rest
    else prefixLoop windowEnd maxRows maxBytes offset (payloadBytes + blockBytes) blockEnd rest

def writePrefixes (logs : List FetchedEventLog) (windowEnd maxRows maxBytes : Nat) : List (Nat × Nat × Nat) :=
  prefixLoop windowEnd maxRows maxBytes 0 0 0 (Blocks.blocks FetchedEventLog.blockNumber logs)

def slice (logs : List α) (offset endOffset : Nat) : List α := (logs.drop offset).take (endOffset - offset)

end Psat.Indexer
