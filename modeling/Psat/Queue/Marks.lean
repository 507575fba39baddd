import Psat.Queue.Work

namespace Psat.Queue.Work
open List

-- What has happened to one key, newest first.
inductive Record
  | marked (revision : Nat)
  | claimed (claim : Claim)
  | finished (claim : Claim) (success found : Bool)
deriving DecidableEq

structure World where
  now : Time
  row : Option IndexerWork
  history : List Record

inductive Event
  | tick (now : Time)
  | mark
  | repair
  | claim (token : Lease)
  | renew (claim : Claim)
  | finish (claim : Claim) (success remove : Bool)

def Record.isMark : Record → Bool
  | .marked _ => true
  | _ => false

namespace World

-- A worker presents a claim it was given; a drawn token is new.
def enabled (world : World) : Event → Prop
  | .tick now => world.now ≤ now
  | .mark => True
  | .repair => True
  | .claim token => (∃ row, world.row = some row ∧ claimable world.now row) ∧
    ∀ claim, .claimed claim ∈ world.history → claim.leaseId ≠ token
  | .renew claim => .claimed claim ∈ world.history
  | .finish claim _ _ => .claimed claim ∈ world.history

def after (world : World) : Event → World
  | .tick now => {world with now:=now}
  | .mark =>
    let row := indexerMarkDirty world.now world.row
    {world with row:=some row,history:=.marked row.revision :: world.history}
  | .repair => {world with row:=world.row.map (repairDue world.now)}
  | .claim token =>
    match world.row with
    | some row =>
      let (claim,leased) := claimOne world.now token row
      {world with row:=some leased,history:=.claimed claim :: world.history}
    | none => world
  | .renew claim =>
    match renewClaim world.now claim world.row with
    | .ok renewed => {world with row:=some renewed}
    | .error _ => world
  | .finish claim success remove =>
    {world with
       row := finish world.now claim success remove world.row
       history := .finished claim success (world.row.any (matched claim)) :: world.history}

def Step (before later : World) : Prop := ∃ event, before.enabled event ∧ before.after event = later

abbrev Run : World → World → Prop := Relation.ReflTransGen Step

def empty : World := ⟨0,none,[]⟩

end World

def Served (claim : Claim) (history : List Record) : Prop :=
  ∃ newer between older, history = newer ++ .finished claim true true :: (between ++ .claimed claim :: older)

theorem Served.cons (served : Served claim history) (record : Record) : Served claim (record :: history) := by
  obtain ⟨newer,between,older,rfl⟩ := served
  exact ⟨record :: newer,between,older,rfl⟩

theorem served_finish (made : .claimed claim ∈ history) : Served claim (.finished claim true true :: history) := by
  obtain ⟨between,older,rfl⟩ := append_of_mem made
  exact ⟨[],between,older,rfl⟩

-- The last mark of a history, the revision it set, and what came after it.
def Since (revision : Nat) (recent history : List Record) : Prop :=
  ∃ earlier, history = recent ++ .marked revision :: earlier ∧ ∀ record ∈ recent, record.isMark = false

theorem since_mark (since : Since revision recent (.marked marked :: history)) :
    recent = [] ∧ revision = marked := by
  obtain ⟨earlier,split,unmarked⟩ := since
  cases recent with
  | nil =>
    cases split
    exact ⟨rfl,rfl⟩
  | cons record rest =>
    obtain ⟨rfl,_⟩ := List.cons.inj split
    cases unmarked _ mem_cons_self

theorem since_cons (other : record.isMark = false)
    (since : Since revision recent (record :: history)) : ∃ rest, recent = record :: rest ∧
    Since revision rest history := by
  obtain ⟨earlier,split,unmarked⟩ := since
  cases recent with
  | nil =>
    obtain ⟨rfl,_⟩ := List.cons.inj split
    cases other
  | cons head rest =>
    obtain ⟨rfl,tail⟩ := List.cons.inj split
    exact ⟨rest,rfl,earlier,tail,(forall_mem_cons.mp unmarked).2⟩

inductive Moved (before later : World) : Prop
  | inserted (absent : before.row = none) (written : later.row = some {availableAt:=before.now})
    (history : later.history = .marked 1 :: before.history)
  | bumped {row work : IndexerWork} (present : before.row = some row) (written : later.row = some work)
    (dirt : work.dirty = true)
    (revision : work.revision = row.revision + 1) (lease : work.leaseId = row.leaseId)
    (history : later.history = .marked work.revision :: before.history)
  | idle (absent : before.row = none) (gone : later.row = none) (history : later.history = before.history)
  | quiet {row work : IndexerWork} (present : before.row = some row) (written : later.row = some work)
    (revision : row.revision ≤ work.revision) (lease : work.leaseId = row.leaseId)
    (clean : work.dirty = false → row.dirty = false) (history : later.history = before.history)
  | claimed {row work : IndexerWork} {claim : Claim} (present : before.row = some row) (written : later.row = some work)
    (revision : work.revision = row.revision) (read : claim.revision = row.revision)
      (lease : work.leaseId = some claim.leaseId)
    (dirt : work.dirty = row.dirty) (fresh : ∀ older, .claimed older ∈ before.history → older.leaseId ≠ claim.leaseId)
    (history : later.history = .claimed claim :: before.history)
  | missed {claim : Claim} {success : Bool} (absent : before.row = none) (gone : later.row = none)
    (history : later.history = .finished claim success false :: before.history)
  | finished {row : IndexerWork} {claim : Claim} {success : Bool} (present : before.row = some row)
    (made : .claimed claim ∈ before.history) (outcome : Finished claim success row later.row)
    (history : later.history = .finished claim success (matched claim row) :: before.history)

theorem World.moved (step : World.Step before later) : Moved before later := by
  obtain ⟨event,enabled,rfl⟩ := step
  cases event with
  | tick now =>
    cases present : before.row with
    | none => exact .idle present present rfl
    | some row => exact .quiet present present (Nat.le_refl _) rfl id rfl
  | mark =>
    cases present : before.row with
    | none =>
      exact .inserted present (by simp [after,present,indexerMarkDirty]) (by simp [after,present,indexerMarkDirty])
    | some row =>
      have marked : before.after .mark =
        {before with
           row := some (indexerMarkDirty before.now (some row))
           history := .marked (indexerMarkDirty before.now (some row)).revision :: before.history} := by
        simp only [after,present]
      rw [marked]
      exact .bumped present rfl rfl rfl rfl rfl
  | repair =>
    cases present : before.row with
    | none => exact .idle present (by simp [after,present]) rfl
    | some row =>
      have written : (before.after .repair).row = some (repairDue before.now row) := by simp [after,present]
      by_cases due : repairable before.now row = true
      · have repaired : repairDue before.now row =
          {row with dirty:=true,revision:=row.revision + 1,availableAt:=before.now} :=
          if_pos due
        rw [repaired] at written
        exact .quiet present written (Nat.le_succ _) rfl nofun rfl
      · have skipped : repairDue before.now row = row := if_neg due
        rw [skipped] at written
        exact .quiet present written (Nat.le_refl _) rfl id rfl
  | claim token =>
    obtain ⟨⟨row,present,_⟩,fresh⟩ := enabled
    have moved : before.after (.claim token) =
      {before with
         row := some (claimOne before.now token row).2
         history := .claimed (claimOne before.now token row).1 :: before.history} := by
      simp [after,present]
    rw [moved]
    exact .claimed present rfl rfl rfl rfl rfl fresh rfl
  | renew claim =>
    cases present : before.row with
    | none => exact .idle present (by simp [after,present,renewClaim]) (by simp [after,present,renewClaim])
    | some row =>
      by_cases held : live before.now claim row = true
      · have renewed : before.after (.renew claim) =
          {before with row:=some {row with leaseExpiresAt:=some (before.now + leaseS)}} := by
          simp [after,present,renewClaim,held]
        rw [renewed]
        exact .quiet present rfl (Nat.le_refl _) rfl id rfl
      · have refused : before.after (.renew claim) = before := by simp [after,present,renewClaim,held]
        rw [refused]
        exact .quiet present present (Nat.le_refl _) rfl id rfl
  | finish claim success remove =>
    cases present : before.row with
    | none => exact .missed present (by simp [after,present,finish]) (by simp only [after,present]; rfl)
    | some row =>
      refine .finished present enabled ?_ (by simp only [after,present]; rfl)
      have written : (before.after (.finish claim success remove)).row = finish before.now claim success remove
        (some row) := by
        simp [after,present]
      rw [written]
      exact finished before.now claim success remove row

-- Every lease on a row was drawn by a claim that had read no newer revision.
structure Drawn (world : World) : Prop where
  known : ∀ row lease, world.row = some row → row.leaseId = some lease → ∃ claim, .claimed claim ∈ world.history ∧
    claim.leaseId = lease
  read : ∀ row claim, world.row = some row → .claimed claim ∈ world.history → row.leaseId = some claim.leaseId →
    claim.revision ≤ row.revision

theorem Drawn.carry (drawn : Drawn before) (present : before.row = some row)
    (written : later.row = some work) (revision : row.revision ≤ work.revision)
    (lease : work.leaseId = row.leaseId ∨ work.leaseId = none)
    (history : ∀ claim, .claimed claim ∈ later.history ↔ .claimed claim ∈ before.history) : Drawn later := by
  have held : ∀ token, work.leaseId = some token → row.leaseId = some token := by
    intro token carries
    cases lease with
    | inl same => exact same ▸ carries
    | inr released =>
      rw [released] at carries
      cases carries
  constructor
  · intro found token there carries
    rw [written] at there
    cases there
    obtain ⟨claim,made,same⟩ := drawn.known row token present (held token carries)
    exact ⟨claim,(history claim).mpr made,same⟩
  · intro found claim there made carries
    rw [written] at there
    cases there
    exact Nat.le_trans (drawn.read row claim present ((history claim).mp made) (held _ carries)) revision

theorem Drawn.unleased (bare : ∀ row, world.row = some row → row.leaseId = none) : Drawn world := by
  constructor
  · intro row lease present carries
    rw [bare row present] at carries
    cases carries
  · intro row claim present _ carries
    rw [bare row present] at carries
    cases carries

theorem Drawn.moved (drawn : Drawn before) (moved : Moved before later) : Drawn later := by
  cases moved with
  | inserted absent written history =>
    refine .unleased fun row present => ?_
    rw [written] at present
    cases present
    rfl
  | bumped present written dirt revision lease history =>
    exact drawn.carry present written (revision ▸ Nat.le_succ _) (.inl lease) fun claim => by simp [history]
  | idle absent gone history => exact .unleased fun row present => by simp [gone] at present
  | quiet present written revision lease clean history =>
    exact drawn.carry present written revision (.inl lease) fun claim => by rw [history]
  | @claimed row work claim present written revision read lease dirt fresh history =>
    constructor
    · intro found token there carries
      rw [written] at there
      cases there
      rw [lease] at carries
      cases carries
      exact ⟨claim,by simp [history],rfl⟩
    · intro found other there made carries
      rw [written] at there
      cases there
      rw [lease] at carries
      have same : claim.leaseId = other.leaseId := Option.some.inj carries
      rw [history] at made
      cases made with
      | head => exact Nat.le_of_eq (read.trans revision.symm)
      | tail _ older => exact absurd same.symm (fresh other older)
  | missed absent gone history => exact .unleased fun row present => by simp [gone] at present
  | finished present made outcome history =>
    cases done : later.row with
    | none => exact .unleased fun row present => by simp [done] at present
    | some work =>
      rw [done] at outcome
      cases outcome with
      | cleaned _ _ same released =>
        exact drawn.carry present done (Nat.le_of_eq same.symm) (.inr released) fun claim => by simp [history]
      | kept same _ lease =>
        exact drawn.carry present done (Nat.le_of_eq same.symm) lease fun claim => by simp [history]

-- A lease older than the last mark has read an older revision.
structure Pending (revision : Nat) (recent : List Record) (world : World) : Prop where
  covered : ∀ row, world.row = some row → revision ≤ row.revision
  settled : (∀ row, world.row = some row → row.dirty = false) → ∃ claim, revision ≤ claim.revision ∧ Served claim recent
  holder : ∀ row claim, world.row = some row → .claimed claim ∈ world.history → row.leaseId = some claim.leaseId →
    .claimed claim ∈ recent ∨ claim.revision < revision

theorem Pending.fresh (present : world.row = some row) (dirt : row.dirty = true)
    (stale : ∀ claim, .claimed claim ∈ world.history → row.leaseId = some claim.leaseId →
      claim.revision < row.revision) :
    Pending row.revision [] world := by
  refine ⟨?_,?_,?_⟩
  · intro found there
    rw [present] at there
    cases there
    exact Nat.le_refl _
  · intro clean
    have undirtied : row.dirty = false := clean row present
    rw [dirt] at undirtied
    cases undirtied
  · intro found claim there made held
    rw [present] at there
    cases there
    exact .inr (stale claim made held)

theorem Pending.carry (pending : Pending revision recent before)
    (present : before.row = some row) (written : later.row = some work) (grown : row.revision ≤ work.revision)
    (lease : work.leaseId = row.leaseId ∨ work.leaseId = none) (clean : work.dirty = false → row.dirty = false)
    (history : ∀ claim, .claimed claim ∈ later.history ↔ .claimed claim ∈ before.history)
    (wider : ∀ claim, (.claimed claim ∈ recent → .claimed claim ∈ recent') ∧
      (Served claim recent → Served claim recent')) :
    Pending revision recent' later := by
  refine ⟨?_,?_,?_⟩
  · intro found there
    rw [written] at there
    cases there
    exact Nat.le_trans (pending.covered row present) grown
  · intro settled
    obtain ⟨claim,newer,served⟩ := pending.settled fun found there => by
      rw [present] at there
      cases there
      exact clean (settled work written)
    exact ⟨claim,newer,(wider claim).2 served⟩
  · intro found claim there made held
    rw [written] at there
    cases there
    cases lease with
    | inl same =>
      cases pending.holder row claim present ((history claim).mp made) (same ▸ held) with
      | inl since => exact .inl ((wider claim).1 since)
      | inr older => exact .inr older
    | inr released =>
      rw [released] at held
      cases held

theorem Pending.gone (absent : world.row = none)
    (served : ∃ claim, revision ≤ claim.revision ∧ Served claim recent) : Pending revision recent world := by
  refine ⟨?_,fun _ => served,?_⟩
  · intro row present
    rw [absent] at present
    cases present
  · intro row claim present _ _
    rw [absent] at present
    cases present

theorem Pending.served_absent (pending : Pending revision recent world)
    (absent : world.row = none) : ∃ claim, revision ≤ claim.revision ∧ Served claim recent := by
  refine pending.settled fun row present => ?_
  rw [absent] at present
  cases present

theorem Pending.served_finish (pending : Pending revision recent world)
    (present : world.row = some row) (made : .claimed claim ∈ world.history) (found : matched claim row = true) :
    ∃ claim', revision ≤ claim'.revision ∧ Served claim' (.finished claim true (matched claim row) :: recent) := by
  have parts : owned claim row = true ∧ decide (row.revision = claim.revision) = true := by
    simpa only [matched,Bool.and_eq_true] using found
  have same : row.revision = claim.revision := decide_eq_true_iff.mp parts.2
  have newer : revision ≤ claim.revision := same ▸ pending.covered row present
  cases pending.holder row claim present made (owned_iff.mp parts.1) with
  | inl since =>
    rw [found]
    exact ⟨claim,newer,Work.served_finish since⟩
  | inr older => exact absurd newer (Nat.not_le_of_lt older)

theorem Pending.finished (pending : Pending revision recent before) (present : before.row = some row)
    (made : .claimed claim ∈ before.history)
    (outcome : Finished claim success row later.row)
    (history : later.history = .finished claim success (matched claim row) :: before.history) :
    Pending revision (.finished claim success (matched claim row) :: recent) later := by
  have grows : ∀ other, (.claimed other ∈ recent → .claimed other ∈ .finished claim success
    (matched claim row) :: recent) ∧
    (Served other recent → Served other (.finished claim success (matched claim row) :: recent)) :=
    fun other => ⟨mem_cons_of_mem _,fun served => served.cons _⟩
  have same : ∀ other, .claimed other ∈ later.history ↔ .claimed other ∈ before.history :=
    fun other => by simp [history]
  cases done : later.row with
  | none =>
    rw [done] at outcome
    cases outcome with
    | removed succeeded found =>
      subst succeeded
      exact .gone done (pending.served_finish present made found)
  | some work =>
    rw [done] at outcome
    cases outcome with
    | cleaned succeeded found unchanged released =>
      subst succeeded
      refine ⟨?_,fun _ => pending.served_finish present made found,?_⟩
      · intro left there
        rw [done] at there
        cases there
        exact unchanged ▸ pending.covered row present
      · intro left other there _ held
        rw [done] at there
        cases there
        rw [released] at held
        cases held
    | kept unchanged dirt lease =>
      exact pending.carry present done (Nat.le_of_eq unchanged.symm) lease (fun clean => dirt ▸ clean) same grows

theorem Pending.claimed (pending : Pending revision recent before)
    (present : before.row = some row) (written : later.row = some work)
    (unchanged : work.revision = row.revision) (lease : work.leaseId = some claim.leaseId)
    (dirt : work.dirty = row.dirty)
    (fresh : ∀ older, .claimed older ∈ before.history → older.leaseId ≠ claim.leaseId)
    (history : later.history = .claimed claim :: before.history) : Pending revision (.claimed claim :: recent) later :=
    by
  refine ⟨?_,?_,?_⟩
  · intro found there
    rw [written] at there
    cases there
    exact unchanged ▸ pending.covered row present
  · intro settled
    obtain ⟨other,newer,served⟩ := pending.settled fun found there => by
      rw [present] at there
      cases there
      exact dirt ▸ settled work written
    exact ⟨other,newer,served.cons _⟩
  · intro found other there made held
    rw [written] at there
    cases there
    rw [lease] at held
    rw [history] at made
    cases made with
    | head => exact .inl mem_cons_self
    | tail _ older => exact absurd (Option.some.inj held).symm (fresh other older)

-- The state of a key: every lease was drawn, and its last mark is pending or served.
def Tracked (world : World) : Prop :=
  Drawn world ∧ ∀ revision recent, Since revision recent world.history → Pending revision recent world

theorem Tracked.step (before later : World) (tracked : Tracked before) (step : World.Step before later) :
    Tracked later := by
  obtain ⟨drawn,pending⟩ := tracked
  have moved := World.moved step
  refine ⟨drawn.moved moved,?_⟩
  intro revision recent since
  cases moved with
  | inserted absent written history =>
    rw [history] at since
    obtain ⟨rfl,rfl⟩ := since_mark since
    exact .fresh written rfl nofun
  | @bumped row work present written dirt revision' lease history =>
    rw [history] at since
    obtain ⟨rfl,rfl⟩ := since_mark since
    refine .fresh written dirt ?_
    intro claim made held
    have older : .claimed claim ∈ before.history := by simpa [history] using made
    have read : claim.revision ≤ row.revision := drawn.read row claim present older (lease ▸ held)
    omega
  | idle absent gone history =>
    rw [history] at since
    exact .gone gone ((pending revision recent since).served_absent absent)
  | quiet present written grown lease clean history =>
    rw [history] at since
    exact (pending revision recent since).carry present written grown (.inl lease) clean (fun claim => by rw [history])
      fun claim => ⟨id,id⟩
  | claimed present written unchanged read lease dirt fresh history =>
    rw [history] at since
    obtain ⟨rest,rfl,past⟩ := since_cons rfl since
    exact (pending revision rest past).claimed present written unchanged lease dirt fresh history
  | missed absent gone history =>
    rw [history] at since
    obtain ⟨rest,rfl,past⟩ := since_cons rfl since
    obtain ⟨claim,newer,served⟩ := (pending revision rest past).served_absent absent
    exact .gone gone ⟨claim,newer,served.cons _⟩
  | finished present made outcome history =>
    rw [history] at since
    obtain ⟨rest,rfl,past⟩ := since_cons rfl since
    exact (pending revision rest past).finished present made outcome history

theorem tracked_empty : Tracked .empty := by
  refine ⟨.unleased (fun row present => by cases present),?_⟩
  intro revision recent since
  obtain ⟨earlier,split,_⟩ := since
  cases recent <;> cases split

def Lost (claim : Claim) (world : World) : Prop :=
  .claimed claim ∈ world.history ∧ ∀ row, world.row = some row → row.leaseId ≠ some claim.leaseId

theorem Lost.carry (lost : Lost claim before) (present : before.row = some row)
    (history : .claimed claim ∈ before.history → .claimed claim ∈ later.history)
    (lease : ∀ work, later.row = some work → work.leaseId = row.leaseId ∨ work.leaseId = none) : Lost claim later := by
  refine ⟨history lost.1,?_⟩
  intro work written held
  cases lease work written with
  | inl same => exact lost.2 row present (same ▸ held)
  | inr released =>
    rw [released] at held
    cases held

theorem Lost.step (before later : World) (lost : Lost claim before) (step : World.Step before later) :
    Lost claim later := by
  cases World.moved step with
  | inserted absent written history =>
    refine ⟨by simp [history,lost.1],?_⟩
    intro work there
    rw [written] at there
    cases there
    exact nofun
  | bumped present written dirt revision lease history =>
    refine lost.carry present (fun made => by simp [history,made]) fun work there => ?_
    rw [written] at there
    cases there
    exact .inl lease
  | idle absent gone history => exact ⟨history ▸ lost.1,fun work there => by simp [gone] at there⟩
  | quiet present written grown lease clean history =>
    refine lost.carry present (fun made => history ▸ made) fun work there => ?_
    rw [written] at there
    cases there
    exact .inl lease
  | claimed present written unchanged read lease dirt fresh history =>
    refine ⟨by simp [history,lost.1],?_⟩
    intro work there held
    rw [written] at there
    cases there
    rw [lease] at held
    exact fresh claim lost.1 (Option.some.inj held).symm
  | missed absent gone history => exact ⟨by simp [history,lost.1],fun work there => by simp [gone] at there⟩
  | finished present made outcome history =>
    refine lost.carry present (fun made => by simp [history,made]) fun work there => ?_
    rw [there] at outcome
    cases outcome with
    | cleaned _ _ _ released => exact .inr released
    | kept _ _ lease => exact lease

-- A clean or absent row: a claim that read the last mark or a newer one was finished since.
theorem no_mark_lost {world : World} (reached : World.Run .empty world) :
    (∀ revision recent, Since revision recent world.history → (∀ row, world.row = some row → row.dirty = false) →
      ∃ claim, revision ≤ claim.revision ∧ Served claim recent) ∧
    ∀ claim, Lost claim world → ∀ later, World.Run world later → ∀ success remove,
      (later.after (.finish claim success remove)).row = later.row := by
  have tracked : Tracked world := General.run_keeps Tracked.step reached tracked_empty
  constructor
  · intro revision recent since clean
    exact (tracked.2 revision recent since).settled clean
  · intro claim lost later run success remove
    have still : Lost claim later := General.run_keeps Lost.step run lost
    exact finish_lost still.2

-- Marked again under a lease: the first finish keeps the row dirty.
def remarked : World :=
  ((((((World.empty.after .mark).after (.claim 1)).after .mark).after (.finish ⟨1,1,0⟩ true true)).after
    (.claim 2)).after
      (.finish ⟨2,2,0⟩ true true))

theorem remarked_reached : World.Run .empty remarked := by
  refine (((((Relation.ReflTransGen.single ⟨.mark,trivial,rfl⟩).tail ⟨.claim 1,⟨⟨_,rfl,by decide⟩,?_⟩,rfl⟩).tail
    ⟨.mark,trivial,rfl⟩).tail ⟨.finish ⟨1,1,0⟩ true true,mem_cons_of_mem _ mem_cons_self,rfl⟩).tail
      ⟨.claim 2,⟨⟨_,rfl,by decide⟩,?_⟩,rfl⟩).tail
    ⟨.finish ⟨2,2,0⟩ true true,mem_cons_self,rfl⟩
  · intro claim made
    cases made with
    | tail _ older => cases older
  · intro claim made same
    have listed : Record.claimed claim ∈ [Record.finished ⟨1,1,0⟩ true false,.marked 2,.claimed ⟨1,1,0⟩,.marked 1] :=
      made
    simp only [mem_cons,not_mem_nil,or_false,reduceCtorEq,false_or,Record.claimed.injEq] at listed
    subst listed
    cases same

theorem no_mark_lost_remarked :
    remarked.row = none ∧ ∃ claim, 2 ≤ claim.revision ∧ Served claim
    [.finished ⟨2,2,0⟩ true true,.claimed ⟨2,2,0⟩,.finished ⟨1,1,0⟩ true false] := by
  have absent : remarked.row = none := rfl
  refine ⟨absent,(no_mark_lost remarked_reached).1 2 _ ⟨[.claimed ⟨1,1,0⟩,.marked 1],rfl,?_⟩ ?_⟩
  · decide
  · intro row present
    rw [absent] at present
    cases present

end Psat.Queue.Work
