import Psat.Enrollment.Queue

namespace Psat.Enrollment
open List
open World (Run Step)

theorem Rows.set_same (rows : Rows) :
    rows.set protocolId row protocolId = row := if_pos rfl

def Record.protocolId : Record → ProtocolId
  | .marked protocolId _ _ => protocolId
  | .claimed claim => claim.protocolId

-- A token on a row was drawn now, or was there before and only marks moved the time.
inductive Kept (world : World) (protocolId : ProtocolId) (lease : Lease) (dirtyAt : Time) (records : List Record) : Prop
  | drawn (claim : EnrollmentClaim) (shape : records = [.claimed claim]) (here : claim.protocolId = protocolId)
    (token : claim.leaseId = lease) (time : claim.dirtyAt = dirtyAt) (fresh : world.Fresh lease)
  | left (row : MonitoringEnrollmentQueue) (before : world.rows protocolId = some row)
    (token : row.leaseId = some lease)
    (time : row.dirtyAt = dirtyAt) (elsewhere : ∀ record ∈ records, record.protocolId ≠ protocolId)
  | remarked (row : MonitoringEnrollmentQueue) (start : Time) (delay : Nat) (before : world.rows protocolId = some row)
    (token : row.leaseId = some lease) (time : dirtyStamp start delay = dirtyAt)
      (shape : records = [.marked protocolId start delay])

theorem Rows.of_set {rows : Rows} (present : rows.set protocolId new other = some row) :
    (other = protocolId ∧ new = some row) ∨ (other ≠ protocolId ∧ rows other = some row) := by
  by_cases here : other = protocolId
  · exact .inl ⟨here,(if_pos here).symm.trans present⟩
  · exact .inr ⟨here,(if_neg here).symm.trans present⟩

-- The row was there with the same token and time.
def Carried (rows : Rows) (protocolId : ProtocolId) (row : MonitoringEnrollmentQueue) : Prop :=
  ∃ old, rows protocolId = some old ∧ old.leaseId = row.leaseId ∧ old.dirtyAt = row.dirtyAt

theorem renewClaim_row (owned : renewClaim rows claim ttl clock = some renewed)
    (present : renewed protocolId = some row) :
    Carried rows protocolId row := by
  revert owned
  fun_cases renewClaim rows claim ttl clock with
  | case2 old found _ =>
    rintro ⟨⟩
    rcases Rows.of_set present with ⟨rfl,new⟩ | ⟨_,there⟩
    · cases new
      exact ⟨old,found,rfl,rfl⟩
    · exact ⟨row,there,rfl,rfl⟩
  | _ => rintro ⟨⟩

theorem finishSuccess_row (done : finishSuccess rows claim ttl clock = some finished)
    (present : finished protocolId = some row) (leased : row.leaseId ≠ none) : Carried rows protocolId row := by
  revert done
  fun_cases finishSuccess rows claim ttl clock with
  | case1 => rintro ⟨⟩
  | case2 renewed owned =>
    rintro ⟨⟩
    exact renewClaim_row owned present
  | case3 renewed owned | case4 renewed owned =>
    rintro ⟨⟩
    rcases Rows.of_set present with ⟨_,new⟩ | ⟨_,there⟩
    · cases new
      try exact absurd rfl leased
    · exact renewClaim_row owned there

theorem finishFailure_row
    (present : finishFailure rows claim start protocolId = some row) (leased : row.leaseId ≠ none) :
    rows protocolId = some row := by
  revert present
  fun_cases finishFailure rows claim start with
  | case2 old found owned delay =>
    intro present
    rcases Rows.of_set present with ⟨_,new⟩ | ⟨_,there⟩
    · split at new <;> cases new <;> exact absurd rfl leased
    · exact there
  | _ => exact id

theorem sweepEnqueueStale_row
    (present : sweepEnqueueStale rows swept start protocolId = some row) (leased : row.leaseId ≠ none) :
    rows protocolId = some row := by
  revert present
  fun_cases sweepEnqueueStale rows swept start with
  | case1 =>
    intro present
    rcases Rows.of_set present with ⟨_,new⟩ | ⟨_,there⟩
    · cases new
      exact absurd rfl leased
    · exact there
  | case2 => exact id

theorem claimRow_cases (taken : claimRow rows protocolId start ttl lease = some (claim,claimed)) :
    ∃ row, rows protocolId = some row ∧ due start row = true ∧ claim = ⟨protocolId,row.dirtyAt,row.attempts,lease⟩ ∧
      claimed = rows.set protocolId (some {row with leaseId:=some lease,leaseExpiresAt:=some (start + seconds ttl)}) :=
      by
  revert taken
  fun_cases claimRow rows protocolId start ttl lease with
  | case2 row found ready =>
    rintro ⟨⟩
    exact ⟨row,found,ready,rfl,rfl⟩
  | _ => rintro ⟨⟩

theorem Kept.carried (carried : Carried before.rows protocolId row) (token : row.leaseId = some lease) :
    Kept before protocolId lease row.dirtyAt [] := by
  obtain ⟨old,found,sameLease,sameTime⟩ := carried
  exact .left old found (sameLease.trans token) sameTime fun _ member => absurd member not_mem_nil

theorem Kept.elsewhere (there : before.rows protocolId = some row) (token : row.leaseId = some lease)
    (away : protocolId ≠ record.protocolId) : Kept before protocolId lease row.dirtyAt [record] := by
  refine .left row there token rfl fun other member => ?_
  rw [mem_singleton.mp member]
  exact away.symm

theorem renewed_kept (present : (renewClaim before.rows claim ttl clock).getD before.rows protocolId = some row)
    (token : row.leaseId = some lease) : Kept before protocolId lease row.dirtyAt [] := by
  cases owned : renewClaim before.rows claim ttl clock with
  | none =>
    rw [owned] at present
    exact .carried ⟨row,present,rfl,rfl⟩ token
  | some renewed =>
    rw [owned] at present
    exact .carried (renewClaim_row owned present) token

theorem step_kept (step : Step before later) : ∃ records, later.history = records ++ before.history ∧
    ∀ protocolId row lease, later.rows protocolId = some row → row.leaseId = some lease →
    Kept before protocolId lease row.dirtyAt records := by
  obtain ⟨event,allowed,rfl⟩ := step
  have leased : ∀ {row : MonitoringEnrollmentQueue} {lease : Lease}, row.leaseId = some lease → row.leaseId ≠ none :=
    fun token none =>
    Option.some_ne_none _ (token.symm.trans none)
  cases event with
  | mark marked start delay =>
    refine ⟨[.marked marked start delay],rfl,fun protocolId row lease present token => ?_⟩
    rcases Rows.of_set present with ⟨rfl,new⟩ | ⟨away,there⟩
    · split at new
      · cases new
        cases token
      · rename_i old found
        cases new
        exact .remarked old start delay found token rfl rfl
    · exact .elsewhere there token away
  | sweep swept start =>
    exact ⟨[],rfl,fun protocolId row lease present token =>
      .carried ⟨row,sweepEnqueueStale_row present (leased token),rfl,rfl⟩ token⟩
  | claim asked start ttl lease =>
    cases taken : claimRow before.rows asked start ttl lease with
    | none =>
      have same : before.after (.claim asked start ttl lease) = before := by simp [World.after,taken]
      rw [same]
      exact ⟨[],rfl,fun protocolId row _ present token => .carried ⟨row,present,rfl,rfl⟩ token⟩
    | some result =>
      obtain ⟨claim,rows⟩ := result
      have next : before.after (.claim asked start ttl lease) = ⟨rows,.claimed claim :: before.history⟩ :=
        by simp [World.after,taken]
      rw [next]
      obtain ⟨old,found,_,made,set⟩ := claimRow_cases taken
      subst made set
      refine ⟨[.claimed _],rfl,fun protocolId row drawn present token => ?_⟩
      rcases Rows.of_set present with ⟨rfl,new⟩ | ⟨away,there⟩
      · cases new
        cases token
        exact .drawn _ rfl rfl rfl rfl allowed
      · exact .elsewhere there token away
  | success claim ttl clock =>
    refine ⟨[],rfl,fun protocolId row lease present token => .carried ?_ token⟩
    change (finishSuccess before.rows claim ttl clock).getD before.rows protocolId = some row at present
    cases done : finishSuccess before.rows claim ttl clock with
    | none =>
      rw [done] at present
      exact ⟨row,present,rfl,rfl⟩
    | some finished =>
      rw [done] at present
      exact finishSuccess_row done present (leased token)
  | failure claim start =>
    exact ⟨[],rfl,fun protocolId row lease present token => .carried
      ⟨row,finishFailure_row present (leased token),rfl,rfl⟩ token⟩
  | _ =>
    exact ⟨[],rfl,fun protocolId row lease present token => renewed_kept present token⟩

-- The time the newest mark of a protocol left on its row.
def lastMark (protocolId : ProtocolId) : List Record → Option Time
  | [] => none
  | .marked marked start delay :: older =>
    if marked = protocolId then some (dirtyStamp start delay) else lastMark protocolId older
  | .claimed _ :: older => lastMark protocolId older

theorem lastMark_elsewhere (elsewhere : ∀ record ∈ records, record.protocolId ≠ protocolId) :
    lastMark protocolId (records ++ older) = lastMark protocolId older := by
  induction records with
  | nil => rfl
  | cons record rest ih =>
    have later := ih (forall_mem_cons.mp elsewhere).2
    have here := elsewhere record mem_cons_self
    cases record with
    | marked marked start delay => exact (if_neg here).trans later
    | claimed claim => exact later

-- While a claim's token stands, only marks moved the row's time since the claim.
def Tracked (world : World) : Prop :=
  ∀ newer claim older, world.history = newer ++ .claimed claim :: older →
    ∀ row, world.rows claim.protocolId = some row → row.leaseId = some claim.leaseId →
      (∀ other, .claimed other ∈ newer → other.protocolId ≠ claim.protocolId) ∧
          row.dirtyAt = (lastMark claim.protocolId newer).getD claim.dirtyAt

theorem append_split (shape : records ++ history = newer ++ record :: older) :
    (∃ inside, newer = records ++ inside ∧ history = inside ++ record :: older) ∨ ∃ inside,
    records = newer ++ record :: inside := by
  rcases append_eq_append_iff.mp shape with past | ⟨inside,recordsIs,rest⟩
  · exact .inl past
  · cases inside with
    | nil => exact .inl ⟨[],by rw [recordsIs,append_nil,append_nil],rest.symm⟩
    | cons head tail =>
      obtain ⟨rfl,_⟩ := List.cons.inj rest
      exact .inr ⟨tail,recordsIs⟩

theorem step_tracked (tracked : Tracked before) (step : Step before later) : Tracked later := by
  obtain ⟨records,grown,kept⟩ := step_kept step
  intro newer claim older shape row present token
  rw [grown] at shape
  rcases append_split shape with ⟨inside,newerIs,rest⟩ | ⟨inside,recordsIs⟩
  · -- The claim was made before this step.
    have known := tracked inside claim older rest
    cases kept claim.protocolId row claim.leaseId present token with
    | drawn drawn made here same time fresh =>
      have old : Record.claimed claim ∈ before.history := by
        rw [rest]
        exact mem_append_right _ mem_cons_self
      exact absurd rfl (fresh.1 claim old)
    | left row' found lease time elsewhere =>
      obtain ⟨alone,dirty⟩ := known row' found lease
      rw [newerIs]
      refine ⟨fun other member => ?_,?_⟩
      · rcases mem_append.mp member with new | past
        · exact elsewhere (.claimed other) new
        · exact alone other past
      · rw [lastMark_elsewhere elsewhere,← time,dirty]
    | remarked row' start delay found lease time made =>
      obtain ⟨alone,_⟩ := known row' found lease
      rw [newerIs,made]
      refine ⟨fun other member => ?_,?_⟩
      · rcases mem_cons.mp member with new | past
        · cases new
        · exact alone other past
      · rw [← time,singleton_append,lastMark,if_pos rfl]
        rfl
  · -- The claim is the record of this step.
    cases kept claim.protocolId row claim.leaseId present token with
    | drawn drawn made here same time fresh =>
      rw [made] at recordsIs
      cases newer with
      | nil =>
        obtain ⟨equal,_⟩ := List.cons.inj recordsIs
        cases equal
        exact ⟨fun _ member => absurd member not_mem_nil,time.symm⟩
      | cons head tail =>
        obtain ⟨_,rest⟩ := List.cons.inj recordsIs
        exact absurd rest.symm (append_ne_nil_of_right_ne_nil _ (cons_ne_nil _ _))
    | left row' found lease time elsewhere =>
      refine absurd rfl (elsewhere (.claimed claim) ?_)
      rw [recordsIs]
      exact mem_append_right _ mem_cons_self
    | remarked row' start delay found lease time made =>
      have member : Record.claimed claim ∈ records := by
        rw [recordsIs]
        exact mem_append_right _ mem_cons_self
      rw [made] at member
      cases mem_singleton.mp member

theorem run_tracked (empty : before.history = []) (run : Run before later) : Tracked later := by
  induction run with
  | refl =>
    intro newer claim older shape
    rw [empty] at shape
    exact absurd shape.symm (append_ne_nil_of_right_ne_nil _ (cons_ne_nil _ _))
  | tail _ step ih => exact step_tracked ih step

def Removes (rows : Rows) (claim : EnrollmentClaim) (ttl : Nat) (clock : Time) : Prop :=
  ∃ finished, finishSuccess rows claim ttl clock = some finished ∧ finished claim.protocolId = none

theorem removes_iff (rows : Rows) (claim : EnrollmentClaim) (ttl : Nat) (clock : Time) : Removes rows claim ttl clock ↔
    ∃ row, rows claim.protocolId = some row ∧ row.leaseId = some claim.leaseId ∧ row.dirtyAt = claim.dirtyAt := by
  unfold Removes finishSuccess renewClaim
  cases found : rows claim.protocolId with
  | none =>
    constructor
    · intro removed
      obtain ⟨_,done,_⟩ := removed
      cases done
    · intro matched
      obtain ⟨_,none,_⟩ := matched
      cases none
  | some row =>
    by_cases owned : row.leaseId = some claim.leaseId
    · simp only [if_pos owned,Rows.set_same]
      by_cases same : row.dirtyAt = claim.dirtyAt
      · rw [if_pos same]
        exact ⟨fun _ => ⟨row,rfl,owned,same⟩,fun _ => ⟨_,rfl,Rows.set_same _⟩⟩
      · rw [if_neg same]
        constructor
        · intro removed
          obtain ⟨finished,done,none⟩ := removed
          cases done
          rw [Rows.set_same] at none
          cases none
        · intro matched
          obtain ⟨other,shape,_,equal⟩ := matched
          cases shape
          exact absurd equal same
    · simp only [if_neg owned]
      constructor
      · intro removed
        obtain ⟨_,done,_⟩ := removed
        cases done
      · intro matched
        obtain ⟨other,shape,mine,_⟩ := matched
        cases shape
        exact absurd mine owned

theorem enrollment_claims_fenced {start world : World} (empty : start.history = []) (run : Run start world)
    {newer older : List Record} {claim : EnrollmentClaim} (taken : world.history = newer ++ .claimed claim :: older)
    (ttl : Nat) (clock : Time) :
    (∀ other, .claimed other ∈ newer → other.protocolId = claim.protocolId →
      fencedCommit world.rows claim ttl clock = none) ∧
    (∀ stamp, lastMark claim.protocolId newer = some stamp →
      (¬Removes world.rows claim ttl clock ↔ ¬(holds world.rows claim = true ∧ stamp = claim.dirtyAt))) := by
  have tracked := run_tracked empty run newer claim older taken
  constructor
  · intro other later same
    unfold fencedCommit renewClaim
    cases found : world.rows claim.protocolId with
    | none => rfl
    | some row => exact if_neg fun token => (tracked row found token).1 other later same
  · intro stamp marked
    refine not_congr ((removes_iff world.rows claim ttl clock).trans ?_)
    unfold holds
    constructor
    · intro matched
      obtain ⟨row,present,token,dirty⟩ := matched
      have current := (tracked row present token).2
      rw [marked] at current
      refine ⟨?_,current.symm.trans dirty⟩
      rw [present]
      exact beq_iff_eq.mpr token
    · intro condition
      obtain ⟨held,same⟩ := condition
      obtain ⟨row,present,owned⟩ := (Option.any_eq_true _ _).mp held
      have token : row.leaseId = some claim.leaseId := beq_iff_eq.mp owned
      have current := (tracked row present token).2
      rw [marked] at current
      exact ⟨row,present,token,current.trans same⟩

def World.play (world : World) (events : List Event) : World := events.foldl World.after world

def emptyWorld : World := ⟨fun _ => none,[]⟩

theorem marked_fresh (start : Time) (delay : Nat) (lease : Lease) :
    (emptyWorld.after (.mark 1 start delay)).Fresh lease := by
  constructor
  · intro claim member
    cases mem_singleton.mp member
  · intro protocolId row present
    change (if protocolId = 1 then some _ else none) = some row at present
    split at present
    · cases present
      intro token
      cases token
    · cases present

-- Marked, claimed when due, and marked again during the build.
def remarked (first : Time) (delay : Nat) (second : Time) : World :=
  emptyWorld.play [.mark 1 first delay,.claim 1 (first + seconds delay + 1) 900 7,.mark 1 second 0]

theorem remarked_run (first : Time) (delay : Nat) (second : Time) : Run emptyWorld (remarked first delay second) := by
  have marked : Run emptyWorld (emptyWorld.after (.mark 1 first delay)) := .single ⟨.mark 1 first delay,trivial,rfl⟩
  have claimed := marked.tail ⟨.claim 1 (first + seconds delay + 1) 900 7,marked_fresh first delay 7,rfl⟩
  exact claimed.tail ⟨.mark 1 second 0,trivial,rfl⟩

theorem seconds_zero : seconds 0 = 0 := rfl

theorem remarked_claim (first : Time) (delay : Nat) (second : Time) : (remarked first delay second).history =
    [.marked 1 second 0] ++ .claimed ⟨1,dirtyStamp first delay,0,7⟩ :: [.marked 1 first delay] ∧
    (remarked first delay second).rows 1 =
    some ⟨dirtyStamp second 0,0,some 7,some (first + seconds delay + 1 + seconds 900)⟩ := by
  have ready : dirtyStamp first delay ≤ first + seconds delay + 1 := by
    exact Nat.le_add_right _ 1
  simp [remarked,World.play,World.after,emptyWorld,markEnrollmentDirty,claimRow,Rows.set,due,ready]

theorem remark_survives : (remarked 0 0 5).history = [.marked 1 5 0] ++ .claimed
    ⟨1,dirtyStamp 0 0,0,7⟩ :: [.marked 1 0 0] ∧
    ¬Removes (remarked 0 0 5).rows ⟨1,dirtyStamp 0 0,0,7⟩ 900 9 := by
  have taken := (remarked_claim 0 0 5).1
  refine ⟨taken,((enrollment_claims_fenced rfl (remarked_run 0 0 5) taken 900 9).2 5 rfl).mpr ?_⟩
  intro condition
  exact absurd condition.2 (by decide)

theorem delayed_mark_hides : Removes (remarked first delay (first + seconds delay)).rows
    ⟨1,dirtyStamp first delay,0,7⟩ ttl clock := by
  have same : dirtyStamp (first + seconds delay) 0 = dirtyStamp first delay := by
    unfold dirtyStamp
    rw [seconds_zero,Nat.add_zero]
  exact (removes_iff _ _ _ _).mpr ⟨_,(remarked_claim _ _ _).2,rfl,same⟩

theorem delayed_mark_hides_later :
    Run emptyWorld (remarked 0 300 (0 + seconds 300)) ∧ (0 : Time) ≠ 0 + seconds 300 ∧
    (remarked 0 300 (0 + seconds 300)).history =
      [.marked 1 (0 + seconds 300) 0] ++ .claimed ⟨1,dirtyStamp 0 300,0,7⟩ :: [.marked 1 0 300] ∧
    Removes (remarked 0 300 (0 + seconds 300)).rows ⟨1,dirtyStamp 0 300,0,7⟩ 900 (seconds 301) :=
  ⟨remarked_run _ _ _,by decide,(remarked_claim _ _ _).1,delayed_mark_hides⟩

end Psat.Enrollment
