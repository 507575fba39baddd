import Psat.General.Runs
import Psat.Lifecycle.Gate

namespace Psat.Lifecycle
open Psat.General Runs

-- A reading of the queues sees every committed claim that has not ended.
def truthful (world : World) : Event → Bool
  | .snapshot work => world.unfinished.isEmpty || work.busy
  | _ => true

def Truthful (world : World) (event : Event) : Prop := truthful world event = true

structure Held (world : World) : Prop where
  claim : ∀ boot, world.holder = some (.claim boot true) → world.row.phase = .running ∧ world.row.bootId = some boot
  tick : ∀ controller row now work, world.holder = some (.tick controller row now work) →
    world.row = row ∧ ∀ seen, work = some seen → seen.busy = false → world.unfinished = []

theorem tick_draining (opened : row.phase ≠ .draining) (closed : (tick controller row now work).2.phase = .draining) :
    work.busy = false := by
  revert closed
  fun_cases tick controller row now work with
  | case4 _ _ idle => exact fun _ => idle.1
  | _ => exact fun closed => absurd closed opened

theorem held_of_free (free : world.holder = none) : Held world where
  claim := fun boot taken => by
    rw [free] at taken
    cases taken
  tick := fun _ _ _ _ taken => by
    rw [free] at taken
    cases taken

theorem step_held (stepped : step world event = some next) (truthful : Truthful world event) (held : Held world) :
    Held next := by
  revert stepped
  fun_cases step world event with
  | case1 _ =>
    rintro ⟨⟩
    exact ⟨held.claim,held.tick⟩
  | case2 boot _ =>
    rintro ⟨⟩
    refine ⟨fun other taken => ?_,fun _ _ _ _ taken => (by cases taken)⟩
    obtain ⟨rfl,allowed⟩ := Holder.claim.inj (Option.some.inj taken)
    simpa [claimAllowed] using allowed
  | case7 _ _ =>
    rintro ⟨⟩
    refine ⟨fun _ taken => (by cases taken),fun _ _ _ _ taken => ?_⟩
    obtain ⟨_,rfl,_,rfl⟩ := Holder.tick.inj (Option.some.inj taken)
    exact ⟨rfl,fun _ seen => (by cases seen)⟩
  | case9 work controller row now holder =>
    rintro ⟨⟩
    refine ⟨fun _ taken => (by cases taken),fun _ _ _ _ taken => ?_⟩
    obtain ⟨_,rfl,_,rfl⟩ := Holder.tick.inj (Option.some.inj taken)
    refine ⟨(held.tick _ _ _ _ holder).1,fun seen same idle => ?_⟩
    cases same
    rw [Truthful,Lifecycle.truthful,idle,Bool.or_false] at truthful
    exact List.isEmpty_iff.mp truthful
  | case15 claim =>
    rintro ⟨⟩
    refine ⟨held.claim,fun controller row now work taken => ?_⟩
    obtain ⟨same,ended⟩ := held.tick controller row now work taken
    refine ⟨same,fun seen read idle => ?_⟩
    rw [ended seen read idle]
    rfl
  | case5 | case11 | case13 =>
    rintro ⟨⟩
    exact held_of_free rfl
  | case16 _ _ free | case18 _ free | case19 _ free | case21 _ free =>
    rintro ⟨⟩
    exact held_of_free free
  | case20 | case23 =>
    rintro ⟨⟩
    exact held
  | _ => rintro ⟨⟩

def Closed (world : World) : Prop := world.row.phase ≠ .running ∧ ∀ boot, world.holder ≠ some (.claim boot true)

theorem step_closed (stepped : step world event = some next)
    (unregistered : ∀ boot machine, event ≠ .register boot machine)
    (held : Held world) (closed : Closed world) : Closed next := by
  revert stepped
  fun_cases step world event with
  | case2 boot _ =>
    rintro ⟨⟩
    refine ⟨closed.1,fun other taken => closed.1 ?_⟩
    obtain ⟨_,allowed⟩ := Holder.claim.inj (Option.some.inj taken)
    simp only [claimAllowed,decide_eq_true_eq] at allowed
    exact allowed.1
  | case4 boot taken | case5 _ boot taken => exact absurd taken (closed.2 boot)
  | case11 controller row now work taken =>
    rintro ⟨⟩
    refine ⟨fun running => closed.1 ?_,fun _ free => by cases free⟩
    rw [(held.tick controller row now (some work) taken).1]
    revert running
    fun_cases tick controller row now work with
    | case4 => rintro ⟨⟩
    | _ => exact id
  | case7 | case9 | case13 =>
    rintro ⟨⟩
    exact ⟨closed.1,fun _ taken => by cases taken⟩
  | case16 boot machine => exact absurd rfl (unregistered boot machine)
  | case21 boot _ =>
    rintro ⟨⟩
    refine ⟨fun running => ?_,closed.2⟩
    dsimp only [finishBoot] at running
    split at running
    · cases running
    · exact closed.1 running
  | case1 | case15 | case18 | case19 | case20 | case23 =>
    rintro ⟨⟩
    exact closed
  | _ => rintro ⟨⟩

theorem commitClaim_holder (stepped : step world (.commitClaim claims) = some next) : ∃ boot, world.holder = some
    (.claim boot true) := by
  rw [step] at stepped
  split at stepped
  · rename_i boot taken
    exact ⟨boot,taken⟩
  · cases stepped

theorem closed_commits_nothing (until_ : List Event) : ∀ {world : World} {claims : List ClaimId}
    {later : List Event} {final : World},
    run step world (until_ ++ .commitClaim claims :: later) = some final →
    Throughout step Truthful world (until_ ++ .commitClaim claims :: later) → Held world → Closed world →
    ∃ boot machine, .register boot machine ∈ until_ := by
  induction until_ with
  | nil =>
    intro world claims later final ran truthful held closed
    obtain ⟨next,stepped,_⟩ := Option.bind_eq_some_iff.mp ran
    obtain ⟨boot,taken⟩ := commitClaim_holder stepped
    exact absurd taken (closed.2 boot)
  | cons event rest ih =>
    intro world claims later final ran truthful held closed
    by_cases registers : ∃ boot machine, event = .register boot machine
    · obtain ⟨boot,machine,rfl⟩ := registers
      exact ⟨boot,machine,List.mem_cons_self⟩
    · rw [List.cons_append,run_cons] at ran
      obtain ⟨next,stepped,ran⟩ := Option.bind_eq_some_iff.mp ran
      have unregistered : ∀ boot machine, event ≠ .register boot machine :=
        fun boot machine same => registers ⟨boot,machine,same⟩
      obtain ⟨boot,machine,inside⟩ := ih ran (truthful.tail stepped)
        (step_held stepped (truthful.head) held) (step_closed stepped unregistered held closed)
      exact ⟨boot,machine,List.mem_cons_of_mem _ inside⟩

def SetsDraining (middle next : World) (event : Event) : Prop :=
  event = .commitTick ∧ middle.row.phase ≠ .draining ∧ next.row.phase = .draining

theorem commitTick_drains (held : Held world) (drains : SetsDraining world next .commitTick)
    (stepped : step world .commitTick = some next) : next.unfinished = [] ∧ Closed next := by
  rw [step] at stepped
  split at stepped
  · rename_i controller row now work taken
    cases stepped
    obtain ⟨same,ended⟩ := held.tick controller row now (some work) taken
    have opened : row.phase ≠ .draining := by
      rw [← same]
      exact drains.2.1
    have idle := tick_draining opened drains.2.2
    refine ⟨ended work rfl idle,?_,fun _ free => by cases free⟩
    rw [show (tick controller row now work).2.phase = .draining from drains.2.2]
    decide
  · cases stepped

theorem draining_is_safe (world final : World) (events : List Event) (free : world.holder = none)
    (ran : run step world events = some final)
    (truthful : Throughout step Truthful world events) (before rest : List Event) (event : Event)
    (split : events = before ++ event :: rest)
    (middle next : World) (reached : run step world before = some middle) (stepped : step middle event = some next) :
    (SetsDraining middle next event → next.unfinished = [] ∧
      ∀ until_ claims later, rest = until_ ++ .commitClaim claims :: later → ∃ boot machine,
        .register boot machine ∈ until_) ∧
    ∀ claims, event = .commitClaim claims → ∃ boot, middle.holder = some (.claim boot true) ∧
    middle.row.bootId = some boot := by
  subst split
  have held : Held middle :=
    run_keeps (fun stepped meets held => step_held stepped meets held) before reached truthful.before
      (held_of_free free)
  refine ⟨fun drains => ?_,fun claims same => ?_⟩
  · obtain ⟨rfl,opened,closed⟩ := drains
    obtain ⟨nothing,shut⟩ := commitTick_drains held ⟨rfl,opened,closed⟩ stepped
    refine ⟨nothing,fun until_ claims later split => ?_⟩
    subst split
    rw [run_append,reached,Option.bind_some,run_cons,stepped,Option.bind_some] at ran
    have later := (truthful.after reached).tail stepped
    exact closed_commits_nothing until_ ran later (step_held stepped rfl held) shut
  · subst same
    obtain ⟨boot,taken⟩ := commitClaim_holder stepped
    exact ⟨boot,taken,(held.claim boot taken).2⟩

def controller : Controller := {machine:=some {id:="m1",state:="started"},mode:=.enforce,grace:=300}

def nothing : Workload := {ready:=[],active:=false}

def beforeDrain : List Event :=
  [.register "b1" "m1",.claim "b1",.commitClaim [7],.finish 7,.pass 400,.tick controller,.snapshot nothing,
    .commitTick,.pass 300,
      .heartbeat "b1",.tick controller,.snapshot nothing]

def afterDrain : List Event := [.claim "b1",.rollback,.finishBoot "b1",.register "b2" "m1",.claim "b2",.commitClaim [8]]

def managed : World := {row:={paused:=false}}

theorem drained_then_reopened : ∃ middle next, run step managed beforeDrain = some middle ∧
    step middle .commitTick = some next ∧
    SetsDraining middle next .commitTick ∧ next.unfinished = [] ∧
    ∀ until_ claims later, afterDrain = until_ ++ .commitClaim claims :: later → ∃ boot machine,
    .register boot machine ∈ until_ := by
  have truthful : Throughout step Truthful managed (beforeDrain ++ .commitTick :: afterDrain) :=
    Throughout.of_check (beforeDrain ++ .commitTick :: afterDrain) (by decide)
  have drains : SetsDraining ((run step managed beforeDrain).getD managed)
    ((run step managed (beforeDrain ++ [.commitTick])).getD managed) .commitTick := ⟨rfl,by decide,by decide⟩
  have safe :=
    (draining_is_safe managed _
      (beforeDrain ++ .commitTick :: afterDrain) rfl rfl truthful beforeDrain afterDrain .commitTick rfl
    _ _ rfl rfl).1 drains
  exact ⟨_,_,rfl,rfl,drains,safe⟩

end Psat.Lifecycle
