import Mathlib.Algebra.Group.Nat.Defs
import Mathlib.Logic.Relation

namespace Psat.Enrollment

-- Microseconds, as the database keeps them.
abbrev Time := Nat
abbrev Lease := Nat
abbrev ProtocolId := Nat

def seconds (count : Nat) : Time := 1000000 * count

structure MonitoringEnrollmentQueue where
  dirtyAt : Time
  attempts : Nat := 0
  leaseId : Option Lease := none
  leaseExpiresAt : Option Time := none
deriving DecidableEq

structure EnrollmentClaim where
  protocolId : ProtocolId
  dirtyAt : Time
  attempts : Nat
  leaseId : Lease
deriving DecidableEq

abbrev Rows := ProtocolId → Option MonitoringEnrollmentQueue

def Rows.set (rows : Rows) (protocolId : ProtocolId) (row : Option MonitoringEnrollmentQueue) : Rows :=
  fun other => if other = protocolId then row else rows other

def backoffCeiling : Nat := 6 * 3600

-- `NOW()` is the start of the transaction, whenever it commits.
def dirtyStamp (start : Time) (delay : Nat) : Time := start + seconds delay

def markEnrollmentDirty (rows : Rows) (protocolId : ProtocolId) (start : Time) (delay : Nat) : Rows :=
  rows.set protocolId <| match rows protocolId with
    | none => some {dirtyAt:=dirtyStamp start delay}
    | some row => some {row with dirtyAt:=dirtyStamp start delay}

-- The repair sweep inserts missing rows and never replaces one.
def sweepEnqueueStale (rows : Rows) (protocolId : ProtocolId) (start : Time) : Rows :=
  match rows protocolId with
  | none => rows.set protocolId (some {dirtyAt:=start})
  | some _ => rows

def due (start : Time) (row : MonitoringEnrollmentQueue) : Bool :=
  decide (row.dirtyAt ≤ start) && row.leaseExpiresAt.all fun expires => decide (expires < start)

-- One row of `claim_due_enrollments`: the token is drawn, `dirty_at` is left alone.
def claimRow (rows : Rows) (protocolId : ProtocolId) (start : Time) (ttl : Nat) (lease : Lease) :
    Option (EnrollmentClaim × Rows) :=
  match rows protocolId with
  | none => none
  | some row =>
    if due start row then
      some (⟨protocolId,row.dirtyAt,row.attempts,lease⟩,
        rows.set protocolId (some {row with leaseId:=some lease,leaseExpiresAt:=some (start + seconds ttl)}))
    else none

def holds (rows : Rows) (claim : EnrollmentClaim) : Bool :=
  (rows claim.protocolId).any fun row => row.leaseId == some claim.leaseId

-- Renewal raises (`none`) when the token is no longer the row's.
def renewClaim (rows : Rows) (claim : EnrollmentClaim) (ttl : Nat) (clock : Time) : Option Rows :=
  match rows claim.protocolId with
  | none => none
  | some row =>
    if row.leaseId = some claim.leaseId then
      some (rows.set claim.protocolId (some {row with leaseExpiresAt:=some (clock + seconds ttl)}))
    else none

-- The fence renews in the business transaction and keeps the row locked: one step.
def fencedCommit (rows : Rows) (claim : EnrollmentClaim) (ttl : Nat) (clock : Time) : Option Rows :=
  renewClaim rows claim ttl clock

-- The keepalive skips a row it does not own.
def keepaliveOnce (rows : Rows) (claim : EnrollmentClaim) (ttl : Nat) (clock : Time) : Rows :=
  (renewClaim rows claim ttl clock).getD rows

def release (row : MonitoringEnrollmentQueue) : MonitoringEnrollmentQueue :=
  {row with leaseId:=none,leaseExpiresAt:=none}

def finishSuccess (rows : Rows) (claim : EnrollmentClaim) (ttl : Nat) (clock : Time) : Option Rows :=
  match renewClaim rows claim ttl clock with
  | none => none
  | some renewed =>
    match renewed claim.protocolId with
    | none => some renewed
    | some row =>
      if row.dirtyAt = claim.dirtyAt then some (renewed.set claim.protocolId none)
      else some (renewed.set claim.protocolId (some (release row)))

def finishFailure (rows : Rows) (claim : EnrollmentClaim) (start : Time) : Rows :=
  match rows claim.protocolId with
  | none => rows
  | some row =>
    if row.leaseId = some claim.leaseId then
      let delay := min (2 ^ (claim.attempts + 1) * 60) backoffCeiling
      rows.set claim.protocolId <| some <|
        if row.dirtyAt =
          claim.dirtyAt then {release row with attempts:=row.attempts + 1,dirtyAt:=dirtyStamp start delay}
        else release row
    else rows

-- What has been committed, newest first.
inductive Record
  | marked (protocolId : ProtocolId) (start : Time) (delay : Nat)
  | claimed (claim : EnrollmentClaim)
deriving DecidableEq

structure World where
  rows : Rows
  history : List Record

inductive Event
  | mark (protocolId : ProtocolId) (start : Time) (delay : Nat)
  | sweep (protocolId : ProtocolId) (start : Time)
  | claim (protocolId : ProtocolId) (start : Time) (ttl : Nat) (lease : Lease)
  | keepalive (claim : EnrollmentClaim) (ttl : Nat) (clock : Time)
  | commit (claim : EnrollmentClaim) (ttl : Nat) (clock : Time)
  | success (claim : EnrollmentClaim) (ttl : Nat) (clock : Time)
  | failure (claim : EnrollmentClaim) (start : Time)

namespace World

def Fresh (world : World) (lease : Lease) : Prop :=
  (∀ claim, .claimed claim ∈ world.history → claim.leaseId ≠ lease) ∧
      ∀ protocolId row, world.rows protocolId = some row → row.leaseId ≠ some lease

def enabled (world : World) : Event → Prop
  | .claim _ _ _ lease => world.Fresh lease
  | _ => True

def after (world : World) : Event → World
  | .mark protocolId start delay =>
    ⟨markEnrollmentDirty world.rows protocolId start delay,.marked protocolId start delay :: world.history⟩
  | .sweep protocolId start => {world with rows:=sweepEnqueueStale world.rows protocolId start}
  | .claim protocolId start ttl lease =>
    match claimRow world.rows protocolId start ttl lease with
    | some (claim,rows) => ⟨rows,.claimed claim :: world.history⟩
    | none => world
  | .keepalive claim ttl clock => {world with rows:=keepaliveOnce world.rows claim ttl clock}
  | .commit claim ttl clock => {world with rows:=(fencedCommit world.rows claim ttl clock).getD world.rows}
  | .success claim ttl clock => {world with rows:=(finishSuccess world.rows claim ttl clock).getD world.rows}
  | .failure claim start => {world with rows:=finishFailure world.rows claim start}

def Step (before later : World) : Prop := ∃ event, before.enabled event ∧ before.after event = later

abbrev Run : World → World → Prop := Relation.ReflTransGen Step

end World

end Psat.Enrollment
