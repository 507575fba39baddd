import Psat.General.Ordered

namespace Psat.Probe
open Psat.General List

structure EthCallResult where
  success : Bool
  revertData : Option String := none
deriving DecidableEq

inductive Attribution
  | callerDiscriminating
  | notCallerDiscriminating
  | callerRejectedConsistent
  | inconclusive
  | indeterminate
deriving DecidableEq

inductive Verdict
  | public_
  | gatedConfirmed
  | gatedObserved
  | keepStatic
deriving DecidableEq

-- A revert with no data cannot be attributed.
def isNodeError (result : EthCallResult) : Bool := !result.success && result.revertData.isNone

def attribute_ (randoms : List EthCallResult) (principal : Option EthCallResult) : Attribution :=
  if randoms = [] ∨ randoms.any isNodeError then .indeterminate
  else
    let allSuccess := randoms.all EthCallResult.success
    let allRevert := randoms.all fun result => !result.success
    if ¬ (allSuccess ∨ allRevert) then .indeterminate
    else
      let revertDatas := Ordered.unique ((randoms.filter fun result => !result.success).map EthCallResult.revertData)
      let sameGate := decide (revertDatas.length ≤ 1)
      match principal.filter fun result => !isNodeError result with
      | some principal =>
        if allRevert then
          if principal.success then .callerDiscriminating
          else if sameGate ∧ revertDatas.head? = some principal.revertData then .inconclusive
          else if sameGate then .callerDiscriminating
          else .indeterminate
        else if allSuccess then .notCallerDiscriminating
        else .indeterminate
      | none =>
        if allSuccess then .notCallerDiscriminating
        else if allRevert ∧ sameGate then .callerRejectedConsistent
        else .indeterminate

structure Call where
  sender : String
  target : String
  data : String

-- A batch may answer anything, and another thing the next time it is asked.
def CallBatch := (asked : Nat) → List Call → (block : Int) → List EthCallResult

-- `calldata` and `randoms` are what synthesis and the keccak derivation give.
structure Request where
  contractAddress : String
  calldata : Option String
  randoms : List String
  principal : Option String
  block : Int
  blockDelta : Int

structure ProbeResult where
  attribution : Attribution
  verdict : Verdict
  reason : String
  calldata : Option String
deriving DecidableEq

namespace Request

def calls (request : Request) (identities : List String) (calldata : String) : List Call :=
  identities.map fun identity => ⟨identity,request.contractAddress,calldata⟩

def identities (request : Request) : List String := request.randoms ++ request.principal.toList

def olderBlock (request : Request) : Int := request.block - request.blockDelta

def newerReply (request : Request) (callBatch : CallBatch) (calldata : String) : List EthCallResult :=
  callBatch 0 (request.calls request.identities calldata) request.block

def olderReply (request : Request) (callBatch : CallBatch) (calldata : String) : List EthCallResult :=
  callBatch 1 (request.calls request.randoms calldata) request.olderBlock

end Request

def runDifferentialProbe (callBatch : CallBatch) (request : Request) : ProbeResult :=
  match request.calldata with
  | none => ⟨.indeterminate,.keepStatic,"calldata_synthesis_miss",none⟩
  | some calldata =>
    let results := request.newerReply callBatch calldata
    if results.length ≠ request.identities.length then ⟨.indeterminate,.keepStatic,"batch_length_mismatch",calldata⟩
    else
      let principalResult := request.principal.bind fun _ => results[request.randoms.length]?
      match attribute_ (results.take request.randoms.length) principalResult with
      | .callerDiscriminating => ⟨.callerDiscriminating,.gatedConfirmed,"two_sided_discrimination",calldata⟩
      | .callerRejectedConsistent =>
        ⟨.callerRejectedConsistent,.gatedObserved,"one_sided_consistent_rejection",calldata⟩
      | .inconclusive => ⟨.inconclusive,.keepStatic,"inconclusive",calldata⟩
      | .indeterminate => ⟨.indeterminate,.keepStatic,"indeterminate",calldata⟩
      | .notCallerDiscriminating =>
        if request.olderBlock < 1 then ⟨.notCallerDiscriminating,.keepStatic,"no_older_block",calldata⟩
        else if attribute_ (request.olderReply callBatch calldata) none = .notCallerDiscriminating then
          ⟨.notCallerDiscriminating,.public_,"open_and_block_independent",calldata⟩
        else ⟨.notCallerDiscriminating,.keepStatic,"open_now_but_state_dependent",calldata⟩

theorem attribute_open (randoms : List EthCallResult) (principal : Option EthCallResult) :
    attribute_ randoms principal = .notCallerDiscriminating ↔
    randoms ≠ [] ∧ ∀ result ∈ randoms, result.success = true := by
  constructor
  · intro answer
    simp only [attribute_] at answer
    split at answer
    · cases answer
    · rename_i usable
      refine ⟨fun empty => usable (.inl empty),?_⟩
      by_contra failed
      have mixed : randoms.all EthCallResult.success = false := by
        rw [Bool.eq_false_iff]
        intro all
        exact failed (all_eq_true.mp all)
      repeat' split at answer
      all_goals simp_all
  · intro opened
    obtain ⟨some_,all⟩ := opened
    have succeed : randoms.all EthCallResult.success = true := all_eq_true.mpr all
    obtain ⟨first,rest,shape⟩ := exists_cons_of_ne_nil some_
    have proceeds := all first (by simp [shape])
    have reverts : (randoms.all fun result => !result.success) = false := by simp [shape,proceeds]
    have usable : randoms.any isNodeError = false := by
      rw [any_eq_false]
      intro result member
      simp [isNodeError,all result member]
    simp only [attribute_,some_,usable,succeed,reverts]
    cases principal.filter fun result => !isNodeError result <;> simp

-- Every random identity's call was answered at the place it was asked, and
-- succeeded.
def AllSucceed (randoms : List String) (reply : List EthCallResult) : Prop :=
  ∀ place < randoms.length, ∃ result, reply[place]? = some result ∧ result.success = true

def PublicAnswered (callBatch : CallBatch) (request : Request) : Prop :=
  (runDifferentialProbe callBatch request).verdict = .public_ → ∃ calldata, request.calldata = some calldata ∧
      AllSucceed request.randoms (request.newerReply callBatch calldata) ∧
      AllSucceed request.randoms (request.olderReply callBatch calldata)

theorem verdict_public (calldata : String) (synthesized : request.calldata = some calldata) :
    (runDifferentialProbe callBatch request).verdict = .public_ ↔
      (request.newerReply callBatch calldata).length = request.identities.length ∧
      ((request.newerReply callBatch calldata).take request.randoms.length ≠ [] ∧
        ∀ result ∈ (request.newerReply callBatch calldata).take request.randoms.length, result.success = true) ∧
      1 ≤ request.olderBlock ∧ request.olderReply callBatch calldata ≠ [] ∧
      ∀ result ∈ request.olderReply callBatch calldata, result.success = true := by
  simp only [runDifferentialProbe,synthesized]
  split
  · simp_all
  · rename_i whole
    rw [← attribute_open _
      (request.principal.bind fun _ => (request.newerReply callBatch calldata)[request.randoms.length]?),
      ← attribute_open _ none]
    split <;> rename_i answer
    · simp [answer]
    · simp [answer]
    · simp [answer]
    · simp [answer]
    · split
      · rename_i early
        simp [Int.not_le.mpr early,answer]
      · split <;> simp_all

theorem allSucceed_of_all (reply : List EthCallResult) (whole : randoms.length ≤ reply.length)
    (all : ∀ result ∈ reply.take randoms.length, result.success = true) : AllSucceed randoms reply := by
  intro place inside
  have there : place < reply.length := Nat.lt_of_lt_of_le inside whole
  refine ⟨reply[place],getElem?_eq_getElem there,all _ ?_⟩
  rw [mem_take_iff_getElem]
  exact ⟨place,by omega,rfl⟩

-- A batch whose first reply lets every identity through.
def openNow (older : List Call → Int → List EthCallResult) : CallBatch := fun asked calls block =>
  if asked = 0 then calls.map fun _ => {success:=true} else older calls block

theorem public_answered_iff (older : List Call → Int → List EthCallResult) (request : Request) :
    (∀ callBatch : CallBatch, callBatch 1 = older → PublicAnswered callBatch request) ↔
    ∀ calldata, request.calldata = some calldata → 1 ≤ request.olderBlock →
      (older (request.calls request.randoms calldata) request.olderBlock).length < request.randoms.length →
      older (request.calls request.randoms calldata) request.olderBlock = [] ∨
        ∃ result ∈ older (request.calls request.randoms calldata) request.olderBlock, result.success = false := by
  constructor
  · intro sound calldata synthesized deep short
    by_contra absent
    rw [not_or] at absent
    have succeed : ∀ result ∈ older (request.calls request.randoms calldata) request.olderBlock,
      result.success = true := by
      intro result member
      by_contra failed
      exact absent.2 ⟨result,member,by simpa using failed⟩
    have opens : (runDifferentialProbe (openNow older) request).verdict = .public_ := by
      rw [verdict_public calldata synthesized]
      refine ⟨by simp [Request.newerReply,openNow,Request.calls],⟨?_,?_⟩,deep,absent.1,succeed⟩
      · intro empty
        have none : 0 = request.randoms.length := by
          simpa [Request.newerReply,openNow,Request.calls,Request.identities] using (congrArg length empty).symm
        omega
      · intro result member
        have inside := mem_of_mem_take member
        simp only [Request.newerReply,openNow,if_true,mem_map] at inside
        obtain ⟨_,_,same⟩ := inside
        rw [← same]
    obtain ⟨other,same,_,answered⟩ := sound (openNow older) rfl opens
    rw [synthesized] at same
    cases same
    obtain ⟨result,found,_⟩ := answered _ short
    change (older _ _)[_]? = some result at found
    simp at found
  · intro complete callBatch same verdict
    subst same
    cases synthesized : request.calldata with
    | none => simp [runDifferentialProbe,synthesized] at verdict
    | some calldata =>
      obtain ⟨whole,⟨_,newer⟩,deep,some_,older⟩ := (verdict_public calldata synthesized).mp verdict
      refine ⟨calldata,rfl,allSucceed_of_all _ ?_ newer,allSucceed_of_all _ ?_ ?_⟩
      · rw [whole,Request.identities,length_append]
        exact Nat.le_add_right _ _
      · by_contra short
        rcases complete calldata synthesized deep (Nat.lt_of_not_le short) with empty | failed
        · exact some_ empty
        · obtain ⟨result,member,failed⟩ := failed
          have succeeded := older result member
          rw [failed] at succeeded
          cases succeeded
      · intro result member
        exact older result (mem_of_mem_take member)

def twoCallers : Request where
  contractAddress := "0xc0"
  calldata := some "0x01"
  randoms := ["0xa","0xb"]
  principal := none
  block := 100000
  blockDelta := 50000

-- The older batch answers one of two calls.
theorem short_reply_public : (runDifferentialProbe (openNow fun _ _ => [{success:=true}]) twoCallers).verdict =
    .public_ ∧
    ¬ PublicAnswered (openNow fun _ _ => [{success:=true}]) twoCallers := by
  have opens : (runDifferentialProbe (openNow fun _ _ => [{success:=true}]) twoCallers).verdict = .public_ := by decide
  refine ⟨opens,fun sound => ?_⟩
  obtain ⟨_,_,_,answered⟩ := sound opens
  obtain ⟨_,found,_⟩ := answered 1 (by decide)
  cases found

end Psat.Probe
