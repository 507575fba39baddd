import Psat.Events.Words
import Psat.General.Dict

namespace Psat.Events.Replay
open Psat.General List
open Text (lower lower_lower startsWith)

-- Its topics are a list, or those of the four attributes that are set.
structure Log where
  topics : List String
  listed : Bool := true
  data : String

def dataBody (data : String) : List Char := if startsWith data "0x" then data.toList.drop 2 else data.toList

def slotAt (body : List Char) (rank : Nat) : String := "0x" ++ String.ofList ((body.drop (64 * rank)).take 64)

def dataSlot (data : String) (rank : Nat) : Option String :=
  if (dataBody data).length < 64 * rank + 64 then none else some (slotAt (dataBody data) rank)

def nonIndexed (count : Nat) (indexed : List Int) : List Nat :=
  (range count).filter fun p : Nat => ¬ (p : Int) ∈ indexed

-- How a hint is told where the event holds a key.
def eventArgToKeyMaps (argument keyIndex : Int) (indexed : List Int) : List (Int × Int) × List (Int × Int) :=
  if argument ∈ indexed then ([(1 + (indexed.idxOf argument : Int),keyIndex)],[])
  else ([],[(((nonIndexed (argument + 1).toNat indexed).length : Int) - 1,keyIndex)])

structure WriterEventSpec where
  topic0 : String
  direction : Option Direction := none
  keyPositionsByIndex : List Nat
  indexedPositions : List Nat
  valuePosition : Option Nat := none
  keyed : keyPositionsByIndex ≠ []
  increasing : indexedPositions.Pairwise (· < ·)

namespace WriterEventSpec

-- The event argument that holds the last key of the write.
def keyPosition (spec : WriterEventSpec) : Nat := spec.keyPositionsByIndex.getLast spec.keyed

def indexed (spec : WriterEventSpec) : List Int := spec.indexedPositions.map fun position : Nat => (position : Int)

def keyMaps (spec : WriterEventSpec) : List (List (Int × Int) × List (Int × Int)) :=
  spec.keyPositionsByIndex.zipIdx.map fun key => eventArgToKeyMaps key.1 key.2 spec.indexed

-- `_event_hint_from_writer_spec`: two keys at one argument leave one entry, the later key's.
def hint (spec : WriterEventSpec) : EventHint where
  topic0 := some spec.topic0
  direction := spec.direction
  topicsToKeys := Dict.write [] (spec.keyMaps.flatMap Prod.fst)
  dataToKeys := Dict.write [] (spec.keyMaps.flatMap Prod.snd)
  valuePosition := spec.valuePosition.map fun position : Nat => (position : Int)
  indexedPositions := spec.indexed

end WriterEventSpec

def isWord (text : String) : Bool := startsWith text "0x" && text.toList.length == 66

-- Topics are words, and the data is a whole number of them.
structure Regular (log : Log) : Prop where
  topics : ∀ topic ∈ log.topics, isWord topic
  hex : startsWith log.data "0x"
  whole : (dataBody log.data).length % 64 = 0

def Log.argument (log : Log) (position : Int) (indexed : List Int) : Option String :=
  if position ∈ indexed then log.topics[1 + indexed.idxOf position]?
  else if nonIndexed (position + 1).toNat indexed = [] then none
  else dataSlot log.data ((nonIndexed (position + 1).toNat indexed).length - 1)

section Words
variable (word : isWord text)
include word

end Words

section Logs
variable (regular : Regular log)
include regular

end Logs

theorem eventArgToKeyMaps_indexed (key : Int) (inside : argument ∈ indexed) :
    eventArgToKeyMaps argument key indexed = ([(1 + (indexed.idxOf argument : Int),key)],[]) := if_pos inside

theorem eventArgToKeyMaps_data (key : Int) (outside : argument ∉ indexed) :
    eventArgToKeyMaps argument key indexed =
      ([],[(((nonIndexed (argument + 1).toNat indexed).length : Int) - 1,key)]) := if_neg outside

namespace WriterEventSpec
variable {spec : WriterEventSpec}

-- One of the two halves that a key's argument writes.
section Side
variable {side : List (Int × Int) × List (Int × Int) → List (Int × Int)}
  (half : ∀ argument key : Int, ∀ entry ∈ side (eventArgToKeyMaps argument key spec.indexed), entry.2 = key)
include half

end Side

-- Whether no later key took the place of this one in the hint.
def Mapped (spec : WriterEventSpec) (argument key : Nat) : Prop :=
  (∀ entry ∈ (eventArgToKeyMaps argument key spec.indexed).1, entry ∈ spec.hint.topicsToKeys) ∧
    ∀ entry ∈ (eventArgToKeyMaps argument key spec.indexed).2, entry ∈ spec.hint.dataToKeys

instance (spec : WriterEventSpec) (argument key : Nat) : Decidable (spec.Mapped argument key) :=
  inferInstanceAs (Decidable (_ ∧ _))

theorem Mapped.unique (first : spec.Mapped argument key) (second : spec.Mapped argument other) : key = other := by
  have topics : (spec.hint.topicsToKeys.map Prod.fst).Nodup := Dict.write_nodup _ nodup_nil
  have data : (spec.hint.dataToKeys.map Prod.fst).Nodup := Dict.write_nodup _ nodup_nil
  by_cases inTopics : (argument : Int) ∈ spec.indexed
  · simp only [Mapped,eventArgToKeyMaps_indexed _ inTopics,mem_singleton,forall_eq,not_mem_nil,false_implies,
      implies_true,and_true,Dict.mem_iff_lookup topics] at first second
    exact Int.ofNat_inj.mp (Option.some.inj (first.symm.trans second))
  · simp only [Mapped,eventArgToKeyMaps_data _ inTopics,mem_singleton,forall_eq,not_mem_nil,false_implies,
      implies_true,true_and,Dict.mem_iff_lookup data] at first second
    exact Int.ofNat_inj.mp (Option.some.inj (first.symm.trans second))

end WriterEventSpec

-- A log that holds so many topics and so many words of data, and nothing else.
def blank (topics words : Nat) : Log :=
  { topics:=replicate topics ("0x" ++ String.ofList (replicate 64 '0'))
    data:="0x" ++ String.ofList (replicate (64 * words) '0') }

end Psat.Events.Replay
