import Mathlib.Data.List.Sort
import Psat.General.Ordered
import Psat.Text

namespace Psat.Events
open Psat.General

-- A hexadecimal body of 4, 20 or 32 bytes, padded to a word as the ABI pads it.
def normalizeWord (raw : String) : Option String :=
  match (Text.lower raw).toList with
  | '0' :: 'x' :: body =>
    if body.length = 8 then some (String.ofList ('0' :: 'x' :: (body ++ List.replicate 56 '0')))
    else if body.length = 40 then some (String.ofList ('0' :: 'x' :: (List.replicate 24 '0' ++ body)))
    else if body.length = 64 then some (String.ofList ('0' :: 'x' :: body))
    else none
  | _ => none

def normalizeTopic (raw : String) : Option String :=
  let value := Text.lower raw
  if Text.startsWith value "0x" then some value else none

def lastAddress (word : String) : String :=
  let chars := word.toList
  String.ofList ('0' :: 'x' :: chars.drop (chars.length - 40))

def wordToAddress (word : Option String) : Option String := (word.bind normalizeWord).map lastAddress

def hexDigit (c : Char) : Option Nat :=
  if '0' ≤ c ∧ c ≤ '9' then some (c.toNat - '0'.toNat)
  else if 'a' ≤ c ∧ c ≤ 'f' then some (c.toNat - 'a'.toNat + 10)
  else if 'A' ≤ c ∧ c ≤ 'F' then some (c.toNat - 'A'.toNat + 10)
  else none

def hexDigits (value : Nat) : List Char → Option Nat
  | [] => some value
  | '_' :: digit :: rest => do
    let d ← hexDigit digit
    hexDigits (16 * value + d) rest
  | digit :: rest => do
    let d ← hexDigit digit
    hexDigits (16 * value + d) rest

def hexNumber : List Char → Option Nat
  | [] => none
  | digit :: rest => do
    let d ← hexDigit digit
    hexDigits d rest

def hexBody : List Char → Option Nat
  | '0' :: x :: '_' :: rest => if x = 'x' ∨ x = 'X' then hexNumber rest else hexNumber ('0' :: x :: '_' :: rest)
  | '0' :: x :: rest => if x = 'x' ∨ x = 'X' then hexNumber rest else hexNumber ('0' :: x :: rest)
  | digits => hexNumber digits

-- `int(word, 16)` on ASCII text.
def parseHex (word : String) : Option Int :=
  let chars := (word.toList.dropWhile Char.isWhitespace).reverse.dropWhile Char.isWhitespace
  match chars.reverse with
  | '-' :: rest => (hexBody rest).map fun value => -(value : Int)
  | '+' :: rest => (hexBody rest).map Int.ofNat
  | digits => (hexBody digits).map Int.ofNat

-- One writer event of a mapping. A direction other than the two is absent here.
inductive Direction
  | add
  | remove
deriving DecidableEq

structure EventHint where
  topic0 : Option String
  direction : Option Direction := none
  topicsToKeys : List (Int × Int) := []
  dataToKeys : List (Int × Int) := []
  valuePosition : Option Int := none
  indexedPositions : List Int := []
deriving DecidableEq

def wordAt (words : List String) (position : Int) : Option String :=
  if 0 ≤ position then words[position.toNat]?.bind normalizeWord else none

-- The latest binding of a key stands first.
def keysFrom (words : List String) (positions : List (Int × Int)) (found : List (Int × String)) : List (Int × String) :=
  positions.foldl (fun found position =>
    match wordAt words position.1 with
    | some word => (position.2,word) :: found
    | none => found) found

def eventKeys (topics dataWords : List String) (topicsToKeys dataToKeys : List (Int × Int)) : List (Int × String) :=
  keysFrom dataWords dataToKeys (keysFrom topics topicsToKeys [])

-- Positions count all arguments: indexed ones are topics, the rest data words.
def wordAtEventArg (topics dataWords : List String) (position : Int) (hint : EventHint) : Option String :=
  let indexed := (Ordered.unique hint.indexedPositions).insertionSort (· ≤ ·)
  if position ∈ indexed then (topics[1 + indexed.idxOf position]?).bind normalizeWord
  else
    let dataRank := ((List.range position.toNat).filter fun p : Nat => ¬ (p : Int) ∈ indexed).length
    dataWords[dataRank]?.bind normalizeWord

-- What a mapping key is compared with.
structure KeySource where
  source : Option String
  constantValue : Option String := none
  value : Option String := none
  constantSet : Option (List String) := none
deriving DecidableEq

def callerSources : List String := ["msg_sender","tx_origin","signature_recovery","root_caller"]

def callerKeyIndex (keySources : List KeySource) : Option Nat :=
  keySources.findIdx? fun key => key.source.any fun source => decide (source ∈ callerSources)

def constantWord (key : KeySource) : Option String :=
  match key.constantValue.bind normalizeWord with
  | some word => some word
  | none =>
    let constant := if key.source = some "constant" then key.value.bind normalizeWord else none
    match constant with
    | some word => some word
    | none =>
      match key.constantSet with
      | some [single] => normalizeWord single
      | _ => none

-- The words the other keys must hold, or nothing when one is no constant.
def constantKeyFilters (keySources : List KeySource) (memberKey : Nat) : Option (List (Int × String)) :=
  keySources.zipIdx.foldlM (fun filters (key,idx) =>
    if idx = memberKey then some filters
    else do
      let word ← constantWord key
      return filters ++ [((idx : Int),word)]) []

def matchesFilters (keys filters : List (Int × String)) : Bool :=
  filters.all fun filter => List.lookup filter.1 keys == some filter.2

end Psat.Events
