import Mathlib.Algebra.Group.Nat.Defs
import Mathlib.Data.Prod.Lex
import Psat.General.Dict
import Psat.General.Sorted

namespace Psat.Scoring.Marks
open Psat.General List Dict

-- In microseconds.
abbrev Instant := Nat

abbrev ProtocolId := Nat

def second : Nat := 1000000

-- A row of `protocol_score_queue`; `dirtyAt` is the start of the transaction
-- that wrote it.
structure QueueRow where
  dirtyAt : Instant
  reason : Option String
  attempts : Nat := 0
  lastFailedAt : Option Instant := none
deriving DecidableEq

abbrev Queue := List (ProtocolId × QueueRow)

inductive Trigger
  | dirtyLoop
  | stalenessSweep
deriving DecidableEq

-- A protocol selected for a fold. Its `dirtyAt` is the token that clears it.
structure DueProtocol where
  protocolId : ProtocolId
  trigger : Trigger
  reason : Option String := none
  dirtyAt : Option Instant := none
deriving DecidableEq

structure Settings where
  limit : Nat := 10
  maxAgeS : Nat := 21600
  backoffBaseS : Nat := 300
  backoffCapS : Nat := 21600

def retryReady (settings : Settings) (started : Instant) (row : QueueRow) : Bool :=
  row.lastFailedAt.all fun failed => failed + min
    (2 ^ row.attempts * settings.backoffBaseS) settings.backoffCapS * second ≤ started

def dueOf (entry : ProtocolId × QueueRow) : DueProtocol :=
  ⟨entry.1,.dirtyLoop,entry.2.reason,some entry.2.dirtyAt⟩

-- Never scored first, then the stalest.
def staleness (computedAt : ProtocolId → Option Instant) (id : ProtocolId) : Nat ×ₗ Nat :=
  toLex ((computedAt id).elim 0 (· + 1),id)

-- `started` is the database's `now()`, `now` the host's clock.
def selectDueProtocols (settings : Settings) (queue : Queue) (protocols : List ProtocolId)
    (computedAt : ProtocolId → Option Instant) (now started : Instant) : List DueProtocol :=
  let ready := queue.filter fun entry => retryReady settings started entry.2
  let due :=
    ((Sorted.sortBy (fun entry => (toLex (entry.2.dirtyAt,entry.1) : Nat ×ₗ Nat)) ready).take settings.limit).map dueOf
  if settings.limit ≤ due.length then due
  else
    let seen := due.map DueProtocol.protocolId
    let old := protocols.filter fun id =>
      ((computedAt id).all fun computed => computed + settings.maxAgeS * second < now) &&
      (List.lookup id queue).all (retryReady settings started)
    let stale := (Sorted.sortBy (staleness computedAt) old).take (settings.limit + seen.length)
    due ++ ((stale.filter (· ∉ seen)).take (settings.limit - due.length)).map fun id => ⟨id,.stalenessSweep,none,none⟩

def markProtocolScoreDirty (started : Instant) (id : ProtocolId) (reason : String) (queue : Queue) : Queue :=
  match List.lookup id queue with
  | none => put id {dirtyAt:=started,reason:=some reason} queue
  | some row => put id {row with dirtyAt:=started,reason:=some reason} queue

def consumed (due : DueProtocol) (entry : ProtocolId × QueueRow) : Bool :=
  entry.1 = due.protocolId ∧ some entry.2.dirtyAt = due.dirtyAt

-- The queue without the row the fold consumed, and how many rows that was.
def clearMark (due : DueProtocol) (queue : Queue) : Queue × Nat :=
  match due.dirtyAt with
  | none => (queue,0)
  | some _ => (queue.filter fun entry => !consumed due entry,(queue.filter (consumed due)).length)

def relieve (id key : ProtocolId) (row : QueueRow) : QueueRow :=
  if key = id ∧ 0 < row.attempts then {row with attempts:=0,lastFailedAt:=none} else row

def resetBackoff (id : ProtocolId) (queue : Queue) : Queue :=
  queue.map fun entry => (entry.1,relieve id entry.1 entry.2)

def stalenessSweepReason : String := "staleness_sweep"

-- A failed fold arms its backoff and leaves the token of a queued row alone.
def recordFailure (started clock : Instant) (due : DueProtocol) (queue : Queue) : Queue :=
  match List.lookup due.protocolId queue with
  | none =>
    let reason := match due.reason with
      | some reason => if reason = "" then stalenessSweepReason else reason
      | none => stalenessSweepReason
    put due.protocolId {dirtyAt:=started,reason:=some reason,attempts:=1,lastFailedAt:=some clock} queue
  | some row => put due.protocolId {row with attempts:=row.attempts + 1,lastFailedAt:=some clock} queue

-- What a successful fold does to the queue in its own transaction.
def settleFold (due : DueProtocol) (queue : Queue) : Queue :=
  let (cleared,count) := clearMark due queue
  if count = 0 then resetBackoff due.protocolId cleared else cleared

def token (queue : Queue) (id : ProtocolId) : Option Instant := (List.lookup id queue).map QueueRow.dirtyAt

def Keyed (queue : Queue) : Prop := (queue.map Prod.fst).Nodup

theorem token_put (id : ProtocolId) : token (put id row queue) other = if other = id then some row.dirtyAt
    else token queue other := by
  unfold token
  rw [lookup_put]
  split <;> rfl

theorem mark_token (started : Instant) (id other : ProtocolId) (reason : String) (queue : Queue) :
    token (markProtocolScoreDirty started id reason queue) other = if other = id then some started
    else token queue other := by
  unfold markProtocolScoreDirty
  split <;> rw [token_put]

theorem mark_keyed (started : Instant) (id : ProtocolId) (reason : String) (keyed : Keyed queue) :
    Keyed (markProtocolScoreDirty started id reason queue) := by
  unfold markProtocolScoreDirty
  split <;> exact put_nodup _ _ keyed

theorem record_token (started clock : Instant) (due : DueProtocol) (id : ProtocolId) (queue : Queue) :
    token (recordFailure started clock due queue) id =
      if id = due.protocolId then some ((token queue id).getD started) else token queue id := by
  unfold recordFailure
  cases present : List.lookup due.protocolId queue with
  | none =>
    rw [token_put]
    split
    · rename_i same
      subst same
      simp [token,present]
    · rfl
  | some row =>
    rw [token_put]
    split
    · rename_i same
      subst same
      simp [token,present]
    · rfl

theorem record_keyed (started clock : Instant) (due : DueProtocol) (keyed : Keyed queue) :
    Keyed (recordFailure started clock due queue) := by
  unfold recordFailure
  split <;> exact put_nodup _ _ keyed

theorem reset_token (id : ProtocolId) : token (resetBackoff id queue) other = token queue other := by
  unfold token
  rw [resetBackoff,lookup_map_values,Option.map_map]
  congr 1
  funext row
  simp only [Function.comp_apply,relieve]
  split <;> rfl

theorem settle_token (keyed : Keyed queue) (due : DueProtocol) (id : ProtocolId) : token
    (settleFold due queue) id = token queue id ∨
    token (settleFold due queue) id = none ∧ id = due.protocolId ∧ due.dirtyAt = token queue id := by
  have cleared : token (clearMark due queue).1 id = token queue id ∨
    token (clearMark due queue).1 id = none ∧ id = due.protocolId ∧ due.dirtyAt = token queue id := by
    unfold clearMark
    cases named : due.dirtyAt with
    | none => exact .inl rfl
    | some stamp =>
      unfold token
      rw [lookup_filter keyed]
      cases present : List.lookup id queue with
      | none => exact .inl rfl
      | some row =>
        cases hit : consumed due (id,row) with
        | false => exact .inl (by simp [hit])
        | true =>
          simp only [consumed,named,decide_eq_true_eq] at hit
          obtain ⟨same,under⟩ := hit
          exact .inr ⟨by simp [Option.filter,consumed,named,same,under],same,under.symm⟩
  unfold settleFold
  dsimp only
  split
  · rw [reset_token]
    exact cleared
  · exact cleared

theorem settle_keyed (keyed : Keyed queue) (due : DueProtocol) : Keyed (settleFold due queue) := by
  have cleared : Keyed (clearMark due queue).1 := by
    unfold clearMark
    cases due.dirtyAt with
    | none => exact keyed
    | some stamp => exact List.Sublist.nodup (List.Sublist.map _ filter_sublist) keyed
  unfold settleFold
  dsimp only
  split
  · rw [Keyed,resetBackoff,map_map]
    exact cleared
  · exact cleared

theorem selected_token (keyed : Keyed queue)
    (selected : due ∈ selectDueProtocols settings queue protocols computedAt now started)
    (named : due.dirtyAt = some stamp) :
    token queue due.protocolId = some stamp := by
  have queued : ∀ entries : Queue, entries ⊆ queue → due ∈ entries.map dueOf →
    token queue due.protocolId = some stamp := by
    intro entries inside member
    obtain ⟨⟨id,row⟩,listed,rfl⟩ := mem_map.mp member
    have found := (mem_iff_lookup keyed id row).mp (inside listed)
    rw [token,dueOf,found]
    exact named
  have ready : ((Sorted.sortBy (fun entry => (toLex (entry.2.dirtyAt,entry.1) : Nat ×ₗ Nat))
    (queue.filter fun entry => retryReady settings started entry.2)).take settings.limit) ⊆ queue := by
    intro entry listed
    have member := mem_of_mem_take listed
    rw [Sorted.mem_sortBy] at member
    exact mem_of_mem_filter member
  unfold selectDueProtocols at selected
  dsimp only at selected
  split at selected
  · exact queued _ ready selected
  · rcases mem_append.mp selected with dirty | stale
    · exact queued _ ready dirty
    · obtain ⟨id,_,rfl⟩ := mem_map.mp stale
      cases named

end Psat.Scoring.Marks
