import Mathlib.Data.List.Dedup
import Psat.General.Outcome

namespace Psat.Probe
open Psat.General List

inductive EffectClass
  | freezePause
  | valueOut
  | codeUpgrade
  | authorityChange
  | supply
deriving DecidableEq

-- What `claim_id` holds in a stored object: a list or an object cannot be looked up in a set.
inductive ClaimId
  | text (id : String)
  | scalar
  | structured

inductive StoredClaim
  | other
  | object (claimId : ClaimId) (tier : Option String)

structure Claim where
  claimId : String
  tier : String

def Claim.stored (claim : Claim) : StoredClaim := .object (.text claim.claimId) (some claim.tier)

inductive TypeError
  | unhashable

def flowClaims : List String := ["flow.out","flow.in"]
def supplyClaims : List String := ["supply.mint","supply.burn"]
def pauseClaims : List String := ["pause.set"]
def enrollmentTransparentClaimIds : List String := ["rate_limit.consume","delegatecall.execute"]

def transparent : StoredClaim → Except TypeError Bool
  | .object (.text id) _ => .ok (decide (id ∈ enrollmentTransparentClaimIds))
  | .object .structured _ => .error .unhashable
  | _ => .ok false

def policyDerived : StoredClaim → Bool
  | .object _ tier => decide (tier = some "policy_derived")
  | .other => false

def familyOf : StoredClaim → Option EffectClass
  | .object (.text id) _ =>
    if id ∈ flowClaims then some .valueOut
    else if id ∈ supplyClaims then some .supply
    else if id ∈ pauseClaims then some .freezePause
    else none
  | _ => none

def withoutTransparent : List StoredClaim → Except TypeError (List StoredClaim)
  | [] => .ok []
  | claim :: rest => do
    let drops ← transparent claim
    let kept ← withoutTransparent rest
    return if drops then kept else claim :: kept

-- No claims are a column without a list; no families are no restriction.
def enrolledFamilies (claims : Option (List StoredClaim)) (isPublic : Bool) : Except TypeError
    (Option (List EffectClass)) :=
  if claims.getD [] = [] then .ok none
  else do
    let kept ← withoutTransparent (claims.getD [])
    return if !isPublic && kept.all policyDerived then none else some (kept.filterMap familyOf).dedup

def Probes (families : Option (List EffectClass)) (effect : EffectClass) : Prop := ∀ listed ∈ families, effect ∈ listed

theorem withoutTransparent_append (ran : withoutTransparent claims = .ok kept)
    (more : withoutTransparent others = .ok kept') :
    withoutTransparent (claims ++ others) = .ok (kept ++ kept') := by
  induction claims generalizing kept with
  | nil =>
    cases ran
    exact more
  | cons claim rest ih =>
    obtain ⟨drops,read,ran⟩ := ok_bind.mp ran
    obtain ⟨tail,reads,same⟩ := ok_bind.mp ran
    cases same
    rw [cons_append,withoutTransparent,read,ih reads]
    cases drops <;> rfl

theorem withoutTransparent_derived (derived : List Claim) (tiers : ∀ claim ∈ derived, claim.tier = "policy_derived") :
    ∃ kept, withoutTransparent (derived.map Claim.stored) = .ok kept ∧ kept.all policyDerived = true := by
  induction derived with
  | nil => exact ⟨[],rfl,rfl⟩
  | cons claim rest ih =>
    obtain ⟨here,later⟩ := forall_mem_cons.mp tiers
    obtain ⟨kept,ran,all⟩ := ih later
    refine ⟨_,by rw [map_cons,withoutTransparent,ran]; rfl,?_⟩
    split
    · exact all
    · rw [all_cons,all,Bool.and_true]
      exact decide_eq_true (congrArg some here)

-- A blank list is one more case of a list that holds only policy-derived claims.
theorem enrolledFamilies_restricted (claims : List StoredClaim) :
    enrolledFamilies (some claims) false = (withoutTransparent claims).map fun kept =>
      if kept.all policyDerived then none else some (kept.filterMap familyOf).dedup := by
  unfold enrolledFamilies
  cases claims with
  | nil => rfl
  | cons claim rest =>
    simp only [Option.getD_some,if_neg (cons_ne_nil claim rest)]
    cases withoutTransparent (claim :: rest) <;> rfl

theorem policy_derived_never_narrows (claims : List StoredClaim) (derived : List Claim)
    (before : Option (List EffectClass))
    (tiers : ∀ claim ∈ derived, claim.tier = "policy_derived")
    (ran : enrolledFamilies (some claims) false = .ok before) :
    ∃ after, enrolledFamilies (some (claims ++ derived.map Claim.stored)) false = .ok after ∧
      ∀ effect, Probes before effect → Probes after effect := by
  rw [enrolledFamilies_restricted] at ran ⊢
  obtain ⟨kept,read,same⟩ := ok_map.mp ran
  obtain ⟨more,reads,all⟩ := withoutTransparent_derived derived tiers
  refine ⟨_,ok_map.mpr ⟨_,withoutTransparent_append read reads,rfl⟩,?_⟩
  intro effect probes families listed
  simp only [all_append,all,Bool.and_true] at listed
  subst same
  split at listed
  · cases listed
  · rename_i own
    cases listed
    rw [if_neg own] at probes
    have here := mem_dedup.mp (probes _ rfl)
    apply mem_dedup.mpr
    rw [filterMap_append]
    exact mem_append_left _ here

theorem latch_claim_never_narrows : ∃ after,
    enrolledFamilies
    (some ([.object (.text "pause.set") (some "idiom_structural")] ++ [⟨"flow.out","policy_derived"⟩].map Claim.stored))
    false = .ok after ∧
      ∀ effect, Probes (some [.freezePause]) effect → Probes after effect :=
  policy_derived_never_narrows _ [⟨"flow.out","policy_derived"⟩] _ (by simp) rfl

end Psat.Probe
