import Psat.Materialize.Rows

namespace Psat.Materialize
open Psat.General Runs

def World.ready (config : Config) (world : World) (key : Key) : Bool := (world.row key).any (Row.isReady config)

section Rows
variable {world : World}

theorem ready_iff (key : Key) : world.ready config key = true ↔ ∃ row, world.row key = some row ∧
    row.isReady config = true := by
  rw [World.ready]
  cases world.row key <;> simp

theorem write_row (world : World) (key other : Key) (row : Row) (build : Option Bundle) :
    (world.write key row build).row other = if other = key then some row else world.row other :=
  Dict.lookup_put key other row world.rows

theorem setPhase_row (world : World) (id : Nat) (caller : Caller) (phase : Phase) (key : Key) :
    (world.setPhase id caller phase).row key = world.row key := rfl

theorem claimedRow_unready (call : Call) (now : Nat) (existing : Option Row) :
    (claimedRow config call now existing).isReady config = false := by
  simp [Row.isReady,claimedRow]

theorem failedRow_unready (call : Call) (error : String) (deterministic : Bool) (existing : Option Row) :
    (failedRow config call error deterministic existing).isReady config = false := by
  simp [Row.isReady,failedRow]

theorem copyBundleRow_ready (call : Call) (donor : Row) (existing : Option Row) :
    (copyBundleRow config call donor existing).isReady config = true := by
  simp [Row.isReady,copyBundleRow]

theorem readyRow_ready (key : Key) (address : String) (hash : Option String) (bundle : Bundle) (existing : Option Row) :
    (readyRow config key address hash bundle existing).isReady config = true := by
  simp [Row.isReady,readyRow]

theorem ready_write (key other : Key) (row : Row) (build : Option Bundle) :
    (world.write key row build).ready config other = if other = key then row.isReady config
    else world.ready config other := by
  rw [World.ready,write_row]
  split <;> rfl

theorem ready_of_write (build : Option Bundle) (written : row.isReady config = true)
    (ready : world.ready config other = true) : (world.write key row build).ready config other = true := by
  rw [ready_write]
  split
  · exact written
  · exact ready

end Rows

-- A late failure is written over the key's row: nothing is read before it.
def failsOn (world : World) (key : Key) : Event → Bool
  | .writeFailure id => (world.callers.lookup id).any fun caller =>
    caller.call.key = key ∧ (world.row key).all fun row => world.boundElsewhere key row.address = false
  | _ => false

theorem step_ready (stepped : step config world event = some next) (ready : world.ready config key = true)
    (kept : failsOn world key event = false) : next.ready config key = true := by
  cases step_next stepped with
  | claim id caller deadline found phase unserved =>
    have apart : key ≠ caller.call.key := by
      rintro rfl
      exact absurd ready (by rw [World.ready,unserved.unready]; decide)
    rw [World.ready,setPhase_row,write_row,if_neg apart]
    exact ready
  | copy id caller deadline source found hash held phase unserved _ _ _ =>
    exact ready_of_write (world.builds.lookup source) (copyBundleRow_ready _ _ _) ready
  | failure id caller claimedAt error deterministic found phase unbound =>
    have apart : key ≠ caller.call.key := by
      rintro rfl
      obtain ⟨row,held,_⟩ := (ready_iff _).mp ready
      rw [held] at unbound
      simp [failsOn,found,held,show world.boundElsewhere caller.call.key row.address = false from unbound] at kept
    rw [World.ready,setPhase_row,write_row,if_neg apart]
    exact ready
  | finish id caller bundle found phase unlocked unready =>
    exact ready_of_write (some bundle) (readyRow_ready _ _ _ _ _) ready
  | commit id publisher found rest =>
    exact ready_of_write (some publisher.publication.bundle) (readyRow_ready _ _ _ _ _) ready
  | _ => exact ready

theorem step_unready (stepped : step config world event = some next) (ready : world.ready config key = true)
    (late : failsOn world key event = true) : next.ready config key = false := by
  obtain ⟨row,held,_⟩ := (ready_iff key).mp ready
  cases event with
  | writeFailure id =>
    rw [step] at stepped
    cases found : world.callers.lookup id with
    | none =>
      rw [found] at stepped
      cases stepped
    | some caller =>
      simp only [failsOn,found,Option.any_some,held,Option.all_some,decide_eq_true_eq] at late
      obtain ⟨rfl,unbound⟩ := late
      rw [found] at stepped
      dsimp only at stepped
      split at stepped
      · rename_i _ error deterministic phase
        cases stepped
        have address : (failedRow config caller.call error deterministic (world.row caller.call.key)).address =
          row.address := by
          rw [held]
          rfl
        rw [World.save,address,if_neg (by simp [unbound]),World.ready,setPhase_row,write_row,if_pos rfl]
        exact failedRow_unready _ _ _ _
      · cases stepped
  | _ => cases late

theorem ready_stays_ready_iff (config : Config) (world final : World) (key : Key) (events : List Event)
    (ready : world.ready config key = true) (ran : run (step config) world events = some final) :
    (∀ before rest, events = before ++ rest → ∀ after, run (step config) world before = some after →
      after.ready config key = true) ↔
        Throughout (step config) (fun middle event => failsOn middle key event = false) world events := by
  constructor
  · intro stays before event rest split middle reached
    by_contra late
    rw [split,run_append,reached,Option.bind_some,run_cons] at ran
    obtain ⟨next,stepped,_⟩ := Option.bind_eq_some_iff.mp ran
    have still := stays (before ++ [event]) rest (by rw [split]; simp) next (by
      rw [run_append,reached,Option.bind_some,run_cons,stepped]
      rfl)
    have lost := step_unready stepped (stays before (event :: rest) split middle reached) (by simpa using late)
    rw [lost] at still
    cases still
  · intro kept before rest split after reached
    rw [split] at kept
    exact run_keeps (fun stepped late still => step_ready stepped still late) before reached kept.before ready

def fifteenMinutes : Config := {version:=12,staleness:=900,storage:=false,long:=by decide}

def vault : Key := {chain:="1",keccak:="0xaa"}

def vaultCall : Call := {key:=vault,address:="0x01"}

def vaultBundle : Bundle := {payload:=fun _ => some "\x7b\x7d"}

-- The first builder is taken over; the second finishes, and then the first fails.
def takenOver : List Event :=
  [.call 1 vaultCall,.poll 1 none,.pass 900,.call 2 vaultCall,.poll 2 none,.build 2 vaultBundle,.finish 2]

theorem late_failure_loses_ready :
    ((run (step fifteenMinutes) {now:=0} takenOver).any fun world => world.ready fifteenMinutes vault) = true ∧
    ((run (step fifteenMinutes) {now:=0} (takenOver ++ [.fail 1 "TimeoutError: " false,.writeFailure 1])).any
      fun world =>
        world.ready fifteenMinutes vault = false) = true := by
  decide

def servedVault : World :=
  {now:=900,rows:=[(vault,readyRow fifteenMinutes vault "0x01" none vaultBundle none)],
     callers:=[(1,{call:=vaultCall,phase:=.building 0})]}

theorem late_success_keeps_ready : servedVault.ready fifteenMinutes vault = true ∧
    ∀ before rest, [Event.build 1 vaultBundle,.finish 1] = before ++ rest → ∀ after,
      run (step fifteenMinutes) servedVault before = some after → after.ready fifteenMinutes vault = true := by
  refine ⟨by decide,(ready_stays_ready_iff fifteenMinutes servedVault _ vault [.build 1 vaultBundle,.finish 1]
    (by decide) rfl).mpr ?_⟩
  intro before event rest split middle _
  have written : event ∈ [Event.build 1 vaultBundle,.finish 1] := by
    rw [split]
    simp
  simp only [List.mem_cons,List.not_mem_nil,or_false] at written
  rcases written with rfl | rfl <;> rfl

end Psat.Materialize
