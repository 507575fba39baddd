import Mathlib.Algebra.Group.Nat.Defs
import Psat.General.Reach
import Psat.Queue.Jobs

namespace Psat.Queue.Work

def repairAgeS : Nat := 86400

def leaseS : Nat := 900

-- One row of `indexer_work`, for a fixed kind and key.
structure IndexerWork where
  revision : Nat := 1
  dirty : Bool := true
  availableAt : Time
  completedAt : Option Time := none
  attempts : Nat := 0
  leaseId : Option Lease := none
  leaseExpiresAt : Option Time := none
deriving DecidableEq

structure Claim where
  revision : Nat
  leaseId : Lease
  attempts : Nat
deriving DecidableEq

-- The database function: a conflicting insert bumps the revision and keeps the lease.
def indexerMarkDirty (now : Time) : Option IndexerWork → IndexerWork
  | none => {availableAt:=now}
  | some row => {row with revision:=row.revision + 1,dirty:=true,availableAt:=now,attempts:=0}

def repairable (now : Time) (row : IndexerWork) : Bool :=
  !row.dirty && row.completedAt.any fun completed => completed + repairAgeS < now

def repairDue (now : Time) (row : IndexerWork) : IndexerWork :=
  if repairable now row then {row with dirty:=true,revision:=row.revision + 1,availableAt:=now} else row

def claimable (now : Time) (row : IndexerWork) : Bool :=
  row.dirty && row.availableAt ≤ now && row.leaseExpiresAt.all (· ≤ now)

def claimOne (now : Time) (token : Lease) (row : IndexerWork) : Claim × IndexerWork :=
  (⟨row.revision,token,row.attempts⟩,{row with leaseId:=some token,leaseExpiresAt:=some (now + leaseS)})

def owned (claim : Claim) (row : IndexerWork) : Bool := row.leaseId = some claim.leaseId

def matched (claim : Claim) (row : IndexerWork) : Bool := owned claim row && row.revision = claim.revision

def backoff (attempts : Nat) : Nat := min 3600 (60 * 2 ^ min attempts 6)

def settle (now : Time) (claim : Claim) (success : Bool) (row : IndexerWork) : IndexerWork :=
  if success then {row with dirty:=false,completedAt:=some now,attempts:=0}
  else {row with attempts:=claim.attempts + 1,availableAt:=now + backoff claim.attempts}

def releaseOwned (claim : Claim) (row : IndexerWork) : IndexerWork :=
  if owned claim row then {row with leaseId:=none,leaseExpiresAt:=none} else row

-- Both statements of one transaction: settle the claimed revision, then give the lease back.
def finish (now : Time) (claim : Claim) (success remove : Bool) : Option IndexerWork → Option IndexerWork
  | none => none
  | some row =>
    if success && remove then
      if matched claim row then none else some (releaseOwned claim row)
    else some (releaseOwned claim (if matched claim row then settle now claim success row else row))

-- A lease that has moved or run out.
inductive WorkPending
  | pending
deriving DecidableEq

def live (now : Time) (claim : Claim) (row : IndexerWork) : Bool := owned claim row && row.leaseExpiresAt.any (now < ·)

def renewClaim (now : Time) (claim : Claim) : Option IndexerWork → Except WorkPending IndexerWork
  | some row => if live now claim row then .ok {row with leaseExpiresAt:=some (now + leaseS)} else .error .pending
  | none => .error .pending

def lockClaim (now : Time) (claim : Claim) : Option IndexerWork → Except WorkPending Unit
  | some row => if live now claim row then .ok () else .error .pending
  | none => .error .pending

theorem owned_iff : owned claim row = true ↔ row.leaseId = some claim.leaseId := decide_eq_true_iff

theorem releaseOwned_unowned (lost : row.leaseId ≠ some claim.leaseId) : releaseOwned claim row = row := by
  have unowned : owned claim row = false := decide_eq_false lost
  simp [releaseOwned,unowned]

theorem finish_lost (lost : ∀ work, row = some work → work.leaseId ≠ some claim.leaseId) :
    finish now claim success remove row = row := by
  cases row with
  | none => rfl
  | some work =>
    have differs : work.leaseId ≠ some claim.leaseId := lost work rfl
    have unowned : owned claim work = false := decide_eq_false differs
    have unmatched : matched claim work = false := by simp [matched,unowned]
    cases success <;> cases remove <;> simp [finish,unmatched,releaseOwned_unowned differs]

inductive Finished (claim : Claim) (success : Bool) (row : IndexerWork) : Option IndexerWork → Prop
  | removed (succeeded : success = true) (match_ : matched claim row = true) : Finished claim success row none
  | cleaned {work : IndexerWork} (succeeded : success = true) (match_ : matched claim row = true)
    (same : work.revision = row.revision)
    (released : work.leaseId = none) : Finished claim success row (some work)
  | kept {work : IndexerWork} (same : work.revision = row.revision) (dirt : work.dirty = row.dirty)
    (lease : work.leaseId = row.leaseId ∨ work.leaseId = none) : Finished claim success row (some work)

theorem finished (now : Time) (claim : Claim) (success remove : Bool) (row : IndexerWork) :
    Finished claim success row (finish now claim success remove (some row)) := by
  have release : ∀ work : IndexerWork, (releaseOwned claim work).revision = work.revision ∧
    (releaseOwned claim work).dirty = work.dirty ∧
    ((releaseOwned claim work).leaseId = work.leaseId ∨ (releaseOwned claim work).leaseId = none) := by
    intro work
    unfold releaseOwned
    split
    · exact ⟨rfl,rfl,.inr rfl⟩
    · exact ⟨rfl,rfl,.inl rfl⟩
  by_cases match_ : matched claim row = true
  · have held : owned claim row = true := (Bool.and_eq_true _ _ ▸ match_ : owned claim row = true ∧ _).1
    cases success with
    | true =>
      cases remove with
      | true =>
        have gone : finish now claim true true (some row) = none := by simp [finish,match_]
        rw [gone]
        exact .removed rfl match_
      | false =>
        have settled : finish now claim true false (some row) = some (releaseOwned claim (settle now claim true row)) :=
          by
          simp [finish,match_]
        have still : owned claim (settle now claim true row) = true := held
        rw [settled]
        exact .cleaned rfl match_ (release _).1 (by simp [releaseOwned,still])
    | false =>
      have settled : finish now claim false remove (some row) = some
        (releaseOwned claim (settle now claim false row)) := by
        simp [finish,match_]
      rw [settled]
      exact .kept (release _).1 (release _).2.1 (release _).2.2
  · have unsettled : finish now claim success remove (some row) = some (releaseOwned claim row) := by
      cases success <;> cases remove <;> simp [finish,match_]
    rw [unsettled]
    exact .kept (release row).1 (release row).2.1 (release row).2.2

end Psat.Queue.Work
