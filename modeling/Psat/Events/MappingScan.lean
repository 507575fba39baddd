import Psat.General.Ordered

namespace Psat.Events.MappingScan
open Psat.General List

inductive Status
  | complete
  | noWriterSpecs
  | ambiguousWriterEvent
  | unfoldableWriterEvent
  | undecodableEvent
  | timeout
  | maxPages
  | error
  | stalled
  | unpinned
deriving DecidableEq

structure WriterEventSpec where
  topic0 : String
  mappingName : String
  direction : String
  keyPosition : Nat
  valuePosition : Option Nat

structure Page (ℓ : Type) where
  logs : List ℓ
  nextBlock : Option Int

-- `late`: the time is over before a request. A reply may be an error, and
-- another one each time.
structure Archive (ℓ : Type) where
  late : Nat → Bool
  reply : (asked : Nat) → (fromBlock : Int) → Option (Page ℓ)

structure Scan (σ : Type) where
  state : σ
  status : Status
  pagesFetched : Nat
  lastBlockScanned : Int

def scanReached (nextBlock toBlock : Option Int) : Bool :=
  match nextBlock, toBlock with
  | some next, some target => decide (target < next)
  | _, _ => false

def unprovenEndStatus (toBlock : Option Int) : Status := if toBlock.isNone then .unpinned else .stalled

section
variable (archive : Archive ℓ) (fold : σ → ℓ → σ × Bool) (toBlock : Option Int)

-- A page's logs in turn, and whether every one was decoded.
def foldPage (state : σ) (logs : List ℓ) : σ × Bool :=
  logs.foldl (fun done log => ((fold done.1 log).1,done.2 && (fold done.1 log).2)) (state,true)

-- The paging loop with the pages it may still fetch.
def scanPages (status : Status) : Nat → Nat → Int → σ → Scan σ
  | pagesLeft, asked, currentFrom, state =>
    if archive.late asked then ⟨state,.timeout,asked,currentFrom⟩
    else
      match pagesLeft with
      | 0 => ⟨state,.maxPages,asked,currentFrom⟩
      | pagesLeft + 1 =>
        match archive.reply asked currentFrom with
        | none => ⟨state,.error,asked,currentFrom⟩
        | some page =>
          let folded := foldPage fold state page.logs
          if ¬ folded.2 then ⟨folded.1,.undecodableEvent,asked + 1,currentFrom⟩
          else if scanReached page.nextBlock toBlock then ⟨folded.1,status,asked + 1,toBlock.getD currentFrom⟩
          else
            let ended := if status = .complete then unprovenEndStatus toBlock else status
            match page.nextBlock with
            | none => ⟨folded.1,ended,asked + 1,currentFrom⟩
            | some next =>
              if next ≤ currentFrom then ⟨folded.1,ended,asked + 1,currentFrom⟩
              else scanPages status pagesLeft (asked + 1) next folded.1

def ambiguousTopic (specs : List WriterEventSpec) (topic0 : String) : Bool :=
  decide (1 < (Ordered.unique ((specs.filter fun spec => spec.topic0 = topic0).map WriterEventSpec.direction)).length)

def enumerateMappingAllowlist (fold : σ → ℓ → σ) (specs : List WriterEventSpec) (fromBlock : Int)
    (maxPages : Nat) (state : σ) : Scan σ :=
  if specs = [] then ⟨state,.noWriterSpecs,0,fromBlock⟩
  else if specs.all fun spec => ambiguousTopic specs spec.topic0 then ⟨state,.ambiguousWriterEvent,0,fromBlock⟩
  else
    let status := if specs.any fun spec => ambiguousTopic specs spec.topic0 then .ambiguousWriterEvent else .complete
    scanPages archive (fun state log => (fold state log,true)) toBlock status maxPages 0 fromBlock state

def twoReadings (one other : WriterEventSpec) : Bool :=
  one.topic0 = other.topic0 && one.mappingName = other.mappingName &&
    (one.valuePosition,one.keyPosition) ≠ (other.valuePosition,other.keyPosition)

def enumerateMappingValues (specs : List WriterEventSpec) (fromBlock : Int) (maxPages : Nat) (state : σ) : Scan σ :=
  if specs = [] then ⟨state,.noWriterSpecs,0,fromBlock⟩
  else if ¬ specs.all fun spec => spec.valuePosition.isSome || spec.direction = "remove" then
    ⟨state,.unfoldableWriterEvent,0,fromBlock⟩
  else if specs.any fun one => specs.any (twoReadings one) then ⟨state,.ambiguousWriterEvent,0,fromBlock⟩
  else scanPages archive fold toBlock .complete maxPages 0 fromBlock state

-- Consecutive requests, each from where the page before it ended, the last
-- page ending past the target.
inductive Covers (target : Int) : Nat → Int → List (Int × Int × List ℓ) → Prop
  | last {next : Int} : archive.reply asked start = some ⟨logs,some next⟩ → target < next →
    Covers target asked start [(start,next,logs)]
  | more {next : Int} : archive.reply asked start = some ⟨logs,some next⟩ → start < next →
    Covers target (asked + 1) next rest →
    Covers target asked start ((start,next,logs) :: rest)

theorem Covers.reads (covers : Covers archive target asked start pages) (low : start ≤ block) (high : block ≤ target) :
    ∃ page ∈ pages, page.1 ≤ block ∧ block < page.2.1 := by
  induction covers with
  | last _ past => exact ⟨_,mem_singleton_self _,low,Int.lt_of_le_of_lt high past⟩
  | @more asked start logs rest next _ _ _ ih =>
    by_cases here : block < next
    · exact ⟨_,mem_cons_self,low,here⟩
    · obtain ⟨page,member,inside⟩ := ih (Int.not_lt.mp here)
      exact ⟨page,mem_cons_of_mem _ member,inside⟩

-- Every block is in a page consumed, and the state is every log of every page
-- folded once, in the order they came.
def Complete (fromBlock : Int) (maxPages : Nat) (state : σ) (scan : Scan σ) : Prop :=
  scan.pagesFetched ≤ maxPages ∧ (scan.status = .complete → ∃ target pages, toBlock = some target ∧
    Covers archive target 0 fromBlock pages ∧ scan.pagesFetched = pages.length ∧
    (∀ block, fromBlock ≤ block → block ≤ target → ∃ page ∈ pages, page.1 ≤ block ∧ block < page.2.1) ∧
    scan.state = (pages.flatMap fun page => page.2.2).foldl (fun state log => (fold state log).1) state)

theorem foldPage_state (state : σ) (logs : List ℓ) :
    (foldPage fold state logs).1 = logs.foldl (fun state log => (fold state log).1) state := by
  unfold foldPage
  generalize true = sound
  induction logs generalizing state sound with
  | nil => rfl
  | cons log rest ih => exact ih _ _

theorem scanPages_fetched (status : Status) (pagesLeft asked : Nat) (start : Int) (state : σ) :
    (scanPages archive fold toBlock status pagesLeft asked start state).pagesFetched ≤ asked + pagesLeft := by
  fun_induction scanPages archive fold toBlock status pagesLeft asked start state with
  | case8 => omega
  | _ => simp

theorem scanPages_complete
    (complete : (scanPages archive fold toBlock status pagesLeft asked start state).status = .complete) :
    ∃ target pages, toBlock = some target ∧ Covers archive target asked start pages ∧
      (scanPages archive fold toBlock status pagesLeft asked start state).pagesFetched = asked + pages.length ∧
      (scanPages archive fold toBlock status pagesLeft asked start state).state =
        (pages.flatMap fun page => page.2.2).foldl (fun state log => (fold state log).1) state := by
  have unproven : (if status = .complete then unprovenEndStatus toBlock else status) ≠ .complete := by
    unfold unprovenEndStatus
    split
    · split <;> simp
    · assumption
  fun_induction scanPages archive fold toBlock status pagesLeft asked start state with
  | case1 | case2 | case3 | case4 => cases complete
  | case5 asked start state early pagesLeft page replied folded decoded reached =>
    -- The page ends past the target, so it is the last one.
    obtain ⟨logs,nextBlock⟩ := page
    unfold scanReached at reached
    split at reached
    · rename_i next target follows
      cases follows
      refine ⟨target,[(start,next,logs)],rfl,.last replied (of_decide_eq_true reached),rfl,?_⟩
      simpa using foldPage_state fold state logs
    · cases reached
  | case6 | case7 => exact absurd complete unproven
  | case8 asked start state early pagesLeft page replied folded decoded behind next follows forward ih =>
    obtain ⟨target,pages,pinned,covers,fetched,read⟩ := ih complete
    obtain ⟨logs,nextBlock⟩ := page
    cases follows
    refine ⟨target,(start,next,logs) :: pages,pinned,.more replied (Int.not_le.mp forward) covers,?_,?_⟩
    · rw [fetched,length_cons]
      omega
    · rw [read,flatMap_cons,foldl_append,foldPage_state]

theorem scanPages_ok (status : Status) (fromBlock : Int) (maxPages : Nat) (state : σ) :
    Complete archive fold toBlock fromBlock maxPages state
    (scanPages archive fold toBlock status maxPages 0 fromBlock state) := by
  refine ⟨?_,fun complete => ?_⟩
  · simpa using scanPages_fetched archive fold toBlock status maxPages 0 fromBlock state
  · obtain ⟨target,pages,pinned,covers,fetched,folded⟩ := scanPages_complete archive fold toBlock complete
    exact ⟨target,pages,pinned,covers,by simpa using fetched,fun _ low high => covers.reads archive low high,folded⟩

theorem complete_scans_cover (archive : Archive ℓ) (add : σ → ℓ → σ) (fold : σ → ℓ → σ × Bool) (toBlock : Option Int)
    (specs : List WriterEventSpec) (fromBlock : Int) (maxPages : Nat) (state : σ) :
    Complete archive (fun state log => (add state log,true)) toBlock fromBlock maxPages state
      (enumerateMappingAllowlist archive toBlock add specs fromBlock maxPages state) ∧
    Complete archive fold toBlock fromBlock maxPages state
      (enumerateMappingValues archive fold toBlock specs fromBlock maxPages state) := by
  have unscanned (fold : σ → ℓ → σ × Bool) (status : Status) (refused : status ≠ .complete) :
    Complete archive fold toBlock fromBlock maxPages state ⟨state,status,0,fromBlock⟩ :=
    ⟨Nat.zero_le _,fun complete => absurd complete refused⟩
  constructor
  · unfold enumerateMappingAllowlist
    split
    · exact unscanned _ _ (by simp)
    split
    · exact unscanned _ _ (by simp)
    exact scanPages_ok ..
  · unfold enumerateMappingValues
    split
    · exact unscanned _ _ (by simp)
    split
    · exact unscanned _ _ (by simp)
    split
    · exact unscanned _ _ (by simp)
    exact scanPages_ok ..

end

end Psat.Events.MappingScan
