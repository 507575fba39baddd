import Mathlib.Data.List.Infix
import Psat.General.Bisect
import Psat.Text

namespace Psat.Indexer.Fetch
open Psat.General Bisect

inductive RpcError
  | timeout
  | cancelled
  | runtime (message : String)
  | other

structure RpcEventLogFetcher where
  maxBlockRange : Int
  minBisectSpan : Int
  resultCap : Option Int
  range_positive : 0 < maxBlockRange
  bisect_positive : 0 < minBisectSpan

-- The addresses, if any, and the topics wanted at each position.
structure Filter where
  addresses : Option (List String)
  topics : List (Option (List String))

def Filter.unconstrained (filter : Filter) : Bool :=
  filter.addresses.isNone && filter.topics.all fun slot => (slot.getD []).isEmpty

-- The answer to each request in turn; `none` is not a list of logs.
abbrev Upstream (ρ : Type) := Nat → Range → Except RpcError (Option (List ρ))

def sizeRefusalMarkers : List String :=
  ["timed out","timeout","too large","toolarge","more than","response size","-32012"]

def isSizeRefusal : RpcError → Bool
  | .timeout => true
  | .runtime message => sizeRefusalMarkers.any fun marker => decide (marker.toList <:+: (Text.lower message).toList)
  | _ => false

-- A client timeout is tried once more.
def requestLogs (upstream : Upstream ρ) (asked : Nat) (range : Range) : Nat × Except RpcError (Option (List ρ)) :=
  match upstream asked range with
  | .error .timeout => (asked + 2,upstream (asked + 1) range)
  | answer => (asked + 1,answer)

inductive Reply (ρ : Type)
  | rejected
  | refusedForSize
  | answered (logs : Option (List ρ))
  | raised (error : RpcError)

inductive Raised
  | rpc (error : RpcError)
  | unconstrainedFilter
  | atResultCap
  | malformedPage

structure LogPage (κ : Type) where
  logs : List κ
  returnedLogCount : Option Nat
  rejected : Nat
  rejectedSpan : Option Int

-- The requests sent and what was refused since the last page.
structure Pending where
  asked : Nat := 0
  rejected : Nat := 0
  rejectedSpan : Option Int := none

section
variable (fetcher : RpcEventLogFetcher)

def requestRange (range : Range) (belowFloor : Bool) : Except RpcError (Option (List ρ)) → Reply ρ
  | .ok logs => .answered logs
  | .error .cancelled => .raised .cancelled
  | .error .other => .raised .other
  | .error error =>
    if range.span ≤ (if belowFloor && isSizeRefusal error then 1 else fetcher.minBisectSpan) then .raised error
    else if isSizeRefusal error then .refusedForSize
    else .rejected

def atCap (count : Option Nat) : Bool :=
  fetcher.resultCap.any fun cap => count.any fun found => decide (cap ≤ (found : Int))

-- One turn of the loop; `read` is the strict or the lenient reader of a page.
def pageStep (upstream : Upstream ρ) (maxPageLogs : Option Int) (read : Range → Option (List ρ) → Option (List κ))
    (state : Pending) (range : Range) (splitByCeiling : Bool) : Step Pending Bool Raised (LogPage κ) :=
  let (asked,answer) := requestLogs upstream state.asked range
  match requestRange fetcher range splitByCeiling answer with
  | .raised error => .raised (.rpc error)
  | .rejected => .split {state with asked,rejected:=state.rejected + 1} splitByCeiling
  | .refusedForSize =>
    .split ⟨asked,state.rejected + 1,some ((state.rejectedSpan.map (min · range.span)).getD range.span)⟩ splitByCeiling
  | .answered logs =>
    let count := logs.map List.length
    if atCap fetcher count then
      if range.span ≤ fetcher.minBisectSpan then .raised .atResultCap
      else .split {state with asked,rejected:=state.rejected + 1} splitByCeiling
    else if (maxPageLogs.any fun most => count.any fun found => decide (most < (found : Int))) && decide
      (1 < range.span) then
      .split {state with asked,rejected:=state.rejected + 1} true
    else
      match read range logs with
      | none => .raised .malformedPage
      | some decoded => .accepted ⟨asked,0,none⟩ ⟨decoded,count,state.rejected,state.rejectedSpan⟩

theorem requestRange_wide (answer : Except RpcError (Option (List ρ)))
    (refused : requestRange fetcher range belowFloor answer = .rejected ∨
      requestRange fetcher range belowFloor answer = .refusedForSize) :
    1 < range.span := by
  have positive := fetcher.bisect_positive
  revert refused
  fun_cases requestRange fetcher range belowFloor answer with
  | case5 error _ _ narrow | case6 error _ _ narrow =>
    split at narrow <;> omega
  | _ => simp

def pages (upstream : Upstream ρ) (maxPageLogs : Option Int) (read : Range → Option (List ρ) → Option (List κ)) :
    Bisection Pending Bool Raised (LogPage κ) where
  step := pageStep fetcher upstream maxPageLogs read
  wide := by
    intro state range mark later onward
    have positive := fetcher.bisect_positive
    fun_cases pageStep fetcher upstream maxPageLogs read state range mark with
    | case2 asked answer _ refused => exact fun _ => requestRange_wide fetcher answer (.inl refused)
    | case3 asked answer _ refused => exact fun _ => requestRange_wide fetcher answer (.inr refused)
    | case5 => exact fun _ => by omega
    | case6 => exact fun _ => by simp_all
    | _ => exact fun taken => by cases taken

def iterPages (upstream : Upstream ρ) (filter : Filter) (maxPageLogs : Option Int)
    (read : Range → Option (List ρ) → Option (List κ))
    (fromBlock toBlock : Int) : Drained Pending Raised (LogPage κ) :=
  if filter.unconstrained then ⟨[],0,.error .unconstrainedFilter⟩
  else (pages fetcher upstream maxPageLogs read).drain {}
    ((windows fetcher.maxBlockRange fetcher.range_positive fromBlock toBlock).map fun window => (window,false))

theorem pages_gap_free (upstream : Upstream ρ) (filter : Filter) (maxPageLogs : Option Int)
    (read : Range → Option (List ρ) → Option (List κ)) (fromBlock toBlock : Int) :
    GapFree fromBlock toBlock (iterPages fetcher upstream filter maxPageLogs read fromBlock toBlock) ∧
    (iterPages fetcher upstream filter maxPageLogs read fromBlock toBlock).requests ≤ 2 *
    (toBlock + 1 - fromBlock).toNat := by
  unfold iterPages
  split
  · exact ⟨gapFree_raised fromBlock toBlock 0 _,Nat.zero_le _⟩
  · exact drain_gapFree _ _ _ fromBlock toBlock _ _

end

end Psat.Indexer.Fetch
