import Psat.Materialize.Ready

namespace Psat.Materialize
open Psat.General Runs

-- The time of the claim that a caller has not yet answered for.
def Phase.claim : Phase → Option Nat
  | .building claimedAt => some claimedAt
  | .raised claimedAt _ _ => some claimedAt
  | _ => none

def Claims (world : World) (key : Key) (id time : Nat) : Prop :=
  ∃ caller, world.callers.lookup id = some caller ∧ caller.call.key = key ∧ caller.phase.claim = some time

def Row.claimedAt (row : Row) : Option Nat := if row.status = .building then row.builderStartedAt else none

def World.claimedAt (world : World) (key : Key) : Option Nat := (world.row key).bind Row.claimedAt

def Timely (config : Config) (world : World) : Event → Prop
  | .writeFailure id => ∀ caller claimedAt error deterministic, world.callers.lookup id = some caller →
    caller.phase = .raised claimedAt error deterministic →
    world.ready config caller.call.key = false ∧ ∀ started, world.claimedAt caller.call.key = some started →
      started = claimedAt
  | .poll id _ => ∀ caller deadline, world.callers.lookup id = some caller → caller.phase = .polling deadline →
    deadline ≤ world.now → ∀ started, world.claimedAt caller.call.key = some started →
      started + config.staleness ≤ world.now
  | _ => True

-- How the claims on a key stand to its row and to each other.
structure Ordered (config : Config) (world : World) (key : Key) : Prop where
  past : ∀ id time, Claims world key id time → time ≤ world.now
  owned : ∀ started, world.claimedAt key = some started → ∃ owner, ∀ id time, Claims world key id time →
    (id = owner ∧ time = started) ∨ time + config.staleness ≤ started
  free : world.ready config key = false → world.claimedAt key = none → ∀ id time, Claims world key id time →
    time + config.staleness ≤ world.now
  apart : ∀ id other time later, id ≠ other → Claims world key id time → Claims world key other later →
    time + config.staleness ≤ later ∨ later + config.staleness ≤ time

section Preserved
variable {world next : World}

theorem claims_setPhase {id other time : Nat} : Claims (world.setPhase id caller phase) key other time ↔
    if other = id then caller.call.key = key ∧ phase.claim = some time else Claims world key other time := by
  unfold Claims World.setPhase
  simp only [Dict.lookup_put]
  split <;> simp

theorem claims_of_done {id other time : Nat} (done : phase.claim = none)
    (claims : Claims (world.setPhase id caller phase) key other time) :
    other ≠ id ∧ Claims world key other time := by
  rw [claims_setPhase] at claims
  split at claims
  · rw [done] at claims
    cases claims.2
  · exact ⟨‹_›,claims⟩

theorem claimedAt_of_ready (ready : world.ready config key = true) : world.claimedAt key = none := by
  obtain ⟨row,held,isReady⟩ := (ready_iff key).mp ready
  have status : row.status = .ready := by
    simp only [Row.isReady,decide_eq_true_eq] at isReady
    exact isReady.1
  simp [World.claimedAt,held,Row.claimedAt,status]

theorem Ordered.fewer (ordered : Ordered config world key) (rows : next.row key = world.row key)
    (clock : world.now ≤ next.now)
    (fewer : ∀ id time, Claims next key id time → Claims world key id time) : Ordered config next key where
  past := fun id time claims => Nat.le_trans (ordered.past id time (fewer id time claims)) clock
  owned := fun started held => by
    have before : world.claimedAt key = some started := by
      rw [← held,World.claimedAt,World.claimedAt,rows]
    obtain ⟨owner,others⟩ := ordered.owned started before
    exact ⟨owner,fun id time claims => others id time (fewer id time claims)⟩
  free := fun unready unclaimed id time claims => by
    rw [World.ready,rows] at unready
    rw [World.claimedAt,rows] at unclaimed
    exact Nat.le_trans (ordered.free unready unclaimed id time (fewer id time claims)) clock
  apart := fun id other time later differ one two => ordered.apart id other time later differ
    (fewer _ _ one) (fewer _ _ two)

theorem Ordered.served (ordered : Ordered config world key) (ready : next.ready config key = true)
    (clock : world.now ≤ next.now)
    (fewer : ∀ id time, Claims next key id time → Claims world key id time) : Ordered config next key where
  past := fun id time claims => Nat.le_trans (ordered.past id time (fewer id time claims)) clock
  owned := fun started held => by
    rw [claimedAt_of_ready ready] at held
    cases held
  free := fun unready => by
    rw [ready] at unready
    cases unready
  apart := fun id other time later differ one two => ordered.apart id other time later differ
    (fewer _ _ one) (fewer _ _ two)

theorem moves_claims {id other time : Nat} (found : world.callers.lookup id = some caller)
    (moved : Moves caller.phase phase) (claims : Claims (world.setPhase id caller phase) key other time) :
    Claims world key other time := by
  rw [claims_setPhase] at claims
  split at claims
  · rename_i same
    subst same
    obtain ⟨named,claimed⟩ := claims
    refine ⟨caller,found,named,?_⟩
    cases phase with
    | raised claimedAt error deterministic =>
      generalize caller.phase = before at moved
      cases moved
      exact claimed
    | building claimedAt =>
      generalize caller.phase = before at moved
      cases moved
    | _ => cases claimed
  · exact claims

section
variable {world : World} {caller : Caller} {id deadline : Nat} (found : world.callers.lookup id = some caller)
    (phase : caller.phase = .polling deadline) (unserved : Unserved config world caller.call deadline)
    (timely : Timely config world (.poll id none)) (ordered : Ordered config world caller.call.key)
include found phase unserved timely ordered

theorem claim_stale : ∀ other time, Claims world caller.call.key other time → time + config.staleness ≤ world.now := by
  intro other time claims
  cases held : world.claimedAt caller.call.key with
  | none => exact ordered.free unserved.unready held other time claims
  | some started =>
    have stale : started + config.staleness ≤ world.now := by
      by_cases late : deadline ≤ world.now
      · exact timely caller deadline found phase late started held
      · obtain ⟨row,rowed,begun⟩ := Option.bind_eq_some_iff.mp held
        have unwaited := unserved.unwaited
        rw [Row.claimedAt] at begun
        split at begun
        · rename_i building
          simp only [rowed,Option.any_some,waits,building,begun,decide_eq_false_iff_not,true_and,
            not_and,decide_eq_true_eq] at unwaited
          omega
        · cases begun
    obtain ⟨owner,others⟩ := ordered.owned started held
    rcases others other time claims with ⟨_,rfl⟩ | older
    · exact stale
    · omega

theorem Ordered.claim : Ordered config
    ((world.write caller.call.key (claimedRow config caller.call world.now (world.row caller.call.key)) none).setPhase
      id caller (.building world.now)) caller.call.key := by
  have stale := claim_stale found phase unserved timely ordered
  have claimed : ∀ {other time : Nat}, Claims ((world.write caller.call.key (claimedRow config caller.call world.now
    (world.row caller.call.key)) none).setPhase id caller (.building world.now)) caller.call.key other time →
    (other = id ∧ time = world.now) ∨ Claims world caller.call.key other time := by
    intro other time claims
    rw [claims_setPhase] at claims
    split at claims
    · rename_i same
      exact .inl ⟨same,(Option.some.inj claims.2).symm⟩
    · exact .inr claims
  refine ⟨fun other time claims => ?_,fun started held => ⟨id,fun other time claims => ?_⟩,fun _ unclaimed => ?_,
    fun one two time later differ first second => ?_⟩
  · rcases claimed claims with ⟨_,rfl⟩ | before
    · exact Nat.le_refl _
    · exact ordered.past other time before
  · have now : started = world.now := by
      rw [World.claimedAt,setPhase_row,write_row,if_pos rfl] at held
      exact (Option.some.inj held).symm
    rw [now]
    rcases claimed claims with here | before
    · exact .inl here
    · exact .inr (stale other time before)
  · rw [World.claimedAt,setPhase_row,write_row,if_pos rfl] at unclaimed
    cases unclaimed
  · rcases claimed first with ⟨rfl,rfl⟩ | before
    · rcases claimed second with ⟨rfl,_⟩ | other
      · exact absurd rfl differ
      · exact .inr (stale two later other)
    · rcases claimed second with ⟨rfl,rfl⟩ | other
      · exact .inl (stale one time before)
      · exact ordered.apart one two time later differ before other

end

theorem Ordered.failure {id claimedAt : Nat}
    (found : world.callers.lookup id = some caller) (phase : caller.phase = .raised claimedAt error deterministic)
    (timely : Timely config world (.writeFailure id)) (ordered : Ordered config world caller.call.key) :
    Ordered config
    ((world.write caller.call.key (failedRow config caller.call error deterministic
      (world.row caller.call.key)) none).setPhase
      id caller .gone) caller.call.key := by
  obtain ⟨unready,own⟩ := timely caller claimedAt error deterministic found phase
  have mine : Claims world caller.call.key id claimedAt := ⟨caller,found,rfl,by rw [phase]; rfl⟩
  have long := config.long
  refine ⟨fun other time claims => ordered.past other time (claims_of_done rfl claims).2,fun started held => ?_,
    fun _ _ other time claims => ?_,
    fun one two time later differ first second => ordered.apart one two time later differ (claims_of_done rfl first).2
      (claims_of_done rfl second).2⟩
  · rw [World.claimedAt,setPhase_row,write_row,if_pos rfl] at held
    cases held
  · obtain ⟨differ,before⟩ := claims_of_done rfl claims
    cases held : world.claimedAt caller.call.key with
    | none => exact ordered.free unready held other time before
    | some started =>
      obtain rfl := own started held
      obtain ⟨owner,others⟩ := ordered.owned started held
      have owner_eq : id = owner := by
        rcases others id started mine with ⟨same,_⟩ | older
        · exact same
        · omega
      have past := ordered.past id started mine
      rcases others other time before with ⟨same,_⟩ | older
      · exact absurd (same.trans owner_eq.symm) differ
      · exact Nat.le_trans older past

theorem Ordered.elsewhere {id : Nat} (away : caller.call.key ≠ key) (ordered : Ordered config world key) :
    Ordered config ((world.write caller.call.key row build).setPhase id caller phase) key := by
  refine ordered.fewer ?_ (Nat.le_refl _) fun other time claims => ?_
  · rw [setPhase_row,write_row,if_neg (Ne.symm away)]
  · rw [claims_setPhase] at claims
    split at claims
    · exact absurd claims.1 away
    · exact claims

theorem Ordered.returned {id : Nat} (written : row.isReady config = true) (ordered : Ordered config world key) :
    Ordered config ((world.write caller.call.key row build).setPhase id caller (.returned row)) key := by
  by_cases here : caller.call.key = key
  · subst here
    refine ordered.served ?_ (Nat.le_refl _) fun other time claims => (claims_of_done rfl claims).2
    rw [World.ready,setPhase_row,write_row,if_pos rfl]
    exact written
  · exact ordered.elsewhere here

theorem step_ordered (stepped : step config world event = some next) (timely : Timely config world event)
    (ordered : ∀ key, Ordered config world key) (key : Key) : Ordered config next key := by
  cases step_next stepped with
  | pass seconds => exact (ordered key).fewer rfl (Nat.le_add_right _ _) fun _ _ claims => claims
  | call id call free =>
    refine (ordered key).fewer rfl (Nat.le_refl _) ?_
    rintro other time ⟨caller,found,named,claimed⟩
    rw [Dict.lookup_put] at found
    split at found
    · cases found
      cases claimed
    · exact ⟨caller,found,named,claimed⟩
  | same event => exact ordered key
  | moves event id caller phase found moved =>
    exact (ordered key).fewer rfl (Nat.le_refl _) fun _ _ => moves_claims found moved
  | claim id caller deadline found phase unserved =>
    by_cases here : caller.call.key = key
    · subst here
      exact (ordered _).claim found phase unserved timely
    · exact (ordered key).elsewhere here
  | copy id caller deadline source row hash found phase unserved held _ _ =>
    exact (ordered key).returned (copyBundleRow_ready _ _ _)
  | failure id caller claimedAt error deterministic found phase unbound =>
    by_cases here : caller.call.key = key
    · subst here
      exact (ordered _).failure found phase timely
    · exact (ordered key).elsewhere here
  | built | put =>
    exact (ordered key).fewer rfl (Nat.le_refl _) fun other time claims => (claims_of_done rfl claims).2
  | finish id caller bundle found phase unlocked unready => exact (ordered key).returned (readyRow_ready _ _ _ _ _)
  | commit id publisher found rest =>
    by_cases here : key = publisher.publication.key
    · subst here
      refine (ordered _).served ?_ (Nat.le_refl _) fun _ _ claims => claims
      rw [ready_write,if_pos rfl]
      exact readyRow_ready _ _ _ _ _
    · refine (ordered key).fewer ?_ (Nat.le_refl _) fun _ _ claims => claims
      rw [write_row,if_neg here]
      rfl
  | _ => exact (ordered key).fewer rfl (Nat.le_refl _) fun _ _ claims => claims

end Preserved

def World.builder (world : World) (id : Nat) : Option (Key × Nat) := (world.callers.lookup id).bind fun caller =>
  match caller.phase with
  | .building claimedAt => some (caller.call.key,claimedAt)
  | _ => none

theorem claims_of_builder {id claimedAt : Nat} (runs : world.builder id = some (key,claimedAt)) :
    Claims world key id claimedAt := by
  obtain ⟨caller,found,building⟩ := Option.bind_eq_some_iff.mp runs
  refine ⟨caller,found,?_⟩
  split at building
  · rename_i phase
    obtain ⟨rfl,rfl⟩ := Prod.mk.inj (Option.some.inj building)
    rw [phase]
    exact ⟨rfl,rfl⟩
  · cases building

theorem one_builder_at_a_time (config : Config) (world final : World) (events : List Event)
    (idle : ∀ id, world.callers.lookup id = none) (ran : run (step config) world events = some final)
    (timely : Throughout (step config) (Timely config) world events) (key : Key) (id other claimedAt later : Nat)
    (differ : id ≠ other)
    (builds : final.builder id = some (key,claimedAt)) (rivals : final.builder other = some (key,later)) :
    claimedAt + config.staleness ≤ later ∨ later + config.staleness ≤ claimedAt := by
  have unclaimed : ∀ key id time, ¬Claims world key id time := by
    rintro key id time ⟨_,held,_⟩
    rw [idle id] at held
    cases held
  have start : ∀ key, Ordered config world key := fun key =>
    { past := fun id time claims => absurd claims (unclaimed key id time)
      owned := fun _ _ => ⟨0,fun id time claims => absurd claims (unclaimed key id time)⟩
      free := fun _ _ id time claims => absurd claims (unclaimed key id time)
      apart := fun id _ time _ _ claims => absurd claims (unclaimed key id time) }
  have ordered := run_keeps (fun stepped meets held => step_ordered stepped meets held) events ran timely start
  exact (ordered key).apart id other claimedAt later differ (claims_of_builder builds) (claims_of_builder rivals)

theorem timely_waiting {id deadline : Nat}
    (found : world.callers.lookup id = some caller) (phase : caller.phase = .polling deadline)
    (early : world.now < deadline) :
    Timely config world (.poll id donor) := by
  intro other later held polling late
  obtain rfl := Option.some.inj (found.symm.trans held)
  obtain rfl := Phase.polling.inj (phase.symm.trans polling)
  omega

def staleTakeover : List Event := [.call 1 vaultCall,.poll 1 none,.pass 900,.call 2 vaultCall,.poll 2 none]

theorem staleTakeover_timely : Throughout (step fifteenMinutes) (Timely fifteenMinutes) {now:=0} staleTakeover := by
  refine .cons trivial fun next stepped => ?_
  cases stepped
  refine .cons (timely_waiting rfl rfl (by decide)) fun next stepped => ?_
  cases stepped
  refine .cons trivial fun next stepped => ?_
  cases stepped
  refine .cons trivial fun next stepped => ?_
  cases stepped
  exact .cons (timely_waiting rfl rfl (by decide)) fun next _ => .nil

theorem stale_claim_taken_over : ∃ final, run (step fifteenMinutes) {now:=0} staleTakeover = some final ∧
    final.builder 1 = some (vault,0) ∧ final.builder 2 = some (vault,900) ∧
    (0 + fifteenMinutes.staleness ≤ 900 ∨ 900 + fifteenMinutes.staleness ≤ 0) := by
  refine ⟨_,rfl,rfl,rfl,?_⟩
  exact one_builder_at_a_time fifteenMinutes {now:=0} _ staleTakeover
    (fun _ => rfl) rfl staleTakeover_timely vault 1 2 0 900
    (by decide) rfl rfl

-- A waiter whose own deadline passes takes over a claim that changed hands
-- while it waited.
def changedHands : List Event :=
  [.call 1 vaultCall,.poll 1 none,.pass 1,.call 2 vaultCall,.poll 2 none,.pass 799,.fail 1 "TimeoutError: " false,
    .writeFailure 1,
      .call 3 vaultCall,.poll 3 none,.pass 101,.poll 2 none]

theorem waiter_takes_over_fresh_claim : ((run (step fifteenMinutes) {now:=0} changedHands).any fun world =>
    world.builder 3 = some (vault,800) ∧ world.builder 2 = some (vault,901)) = true := by
  decide

end Psat.Materialize
