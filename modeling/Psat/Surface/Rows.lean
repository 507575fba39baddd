import Psat.General.Ordered
import Psat.Capability.Terms

namespace Psat.Surface
open Psat.Capability Psat.General Text

-- Where a caller row comes from; the texts are `semantic_capability:<kind>`.
inductive Origin
  | finiteSet
  | thresholdGroup
  | signatureWitness
deriving DecidableEq

inductive PrincipalType
  | controller
  | signatureWitness
deriving DecidableEq

-- Keys a row may lack, which is not the same as holding none.
structure Details where
  source : String := "semantic_predicate_capability_resolver"
  resolverPath : Option (List String)
  membershipQuality : Option (Option MembershipQuality) := none
  confidence : Option CapabilityConfidence := none
  trace : List TraceStep := []
  authorityBasis : Option String := none
  accessorSlotAgreement : Option String := none
  threshold : Option Nat := none
  owners : Option (List String) := none
  totalSigners : Option Nat := none
  signerKind : Option CapKind := none
  conditions : Option (List Condition) := none
deriving DecidableEq

structure Row where
  address : String
  resolvedType : Option String := none
  origin : Origin
  principalType : PrincipalType
  details : Details
deriving DecidableEq

structure RowKey where
  address : String
  origin : Origin
  principalType : PrincipalType
deriving DecidableEq

def rowKey (row : Row) : RowKey := ⟨lower row.address,row.origin,row.principalType⟩

def truthy (text : Option String) : Option String := text.filter (· != "")

def resolverPath (cap : CapDict) : Option (List String) :=
  let steps := (cap.trace.filter fun step => step.step != "" && !step.deferredPendingIndex).map TraceStep.step
  if steps = [] then none else some steps

def detailsWithConditions (details : Details) (conditions : List Condition) : Details :=
  if conditions = [] then details
  else {details with conditions:=some (Ordered.unique (details.conditions.getD [] ++ conditions))}

def shippedAuthorityBases : List String :=
  ["abi_auto_getter","standard_namespaced_accessor","deunderscore_convention","slot_name_keyword","callee_selector"]

def nameMatchedAuthorityBases : List String :=
  ["standard_namespaced_accessor","deunderscore_convention","slot_name_keyword"]

def basisCompatibleTraceSteps : List String := ["authority_getter_basis","live_getter_resolution"]

-- The loop of `_authority_basis`.
def basisSteps : List TraceStep → Option (List String)
  | [] => some []
  | step :: rest =>
    if step.deferredPendingIndex then basisSteps rest
    else if step.step = "authority_getter_basis" then
      match step.basis with
      | none => none
      | some basis => (basisSteps rest).map (basis :: ·)
    else if step.step ∈ basisCompatibleTraceSteps then basisSteps rest
    else none

def authorityBasis (cap : CapDict) : Option String :=
  if (cap.members.getD []).length ≠ 1 then none
  else match basisSteps cap.trace with
    | some [basis] => if basis ∈ shippedAuthorityBases then some basis else none
    | _ => none

def finiteSetRow (cap : CapDict) (conditions : List Condition) (member : String) : Row where
  address := lower member
  origin := .finiteSet
  principalType := .controller
  details :=
    let basis := authorityBasis cap
    detailsWithConditions
      { resolverPath:=resolverPath cap
        membershipQuality:=some cap.membershipQuality
        confidence:=cap.confidence
        trace:=cap.trace
        authorityBasis:=basis
        accessorSlotAgreement:=if basis.any (· ∈ nameMatchedAuthorityBases) then some "not_determined" else none }
      conditions

def rowsForFiniteSet (cap : CapDict) (conditions : List Condition) : List Row :=
  ((cap.members.getD []).filter isAddress).map (finiteSetRow cap conditions)

-- `safe_address_lookup` is a dictionary from function signatures, with an
-- entry under `default`.
def safeAddress (trace : List TraceStep) (lookup : List (String × String)) (signature : Option String) : String :=
  let recorded := (trace.find? (·.step == "source_signature_threshold")).bind (·.contract)
  let known := match (truthy signature).bind (List.lookup · lookup) with
    | some address => some address
    | none => List.lookup "default" lookup
  (truthy ((truthy recorded).or known)).getD zeroAddress

def rowsForThresholdGroup (cap : CapDict) (conditions : List Condition) (lookup : List (String × String))
    (signature : Option String) : List Row :=
  let signers := (cap.threshold.map Prod.snd).getD []
  let owners := (signers.filter isAddress).map lower
  [{ address:=lower (safeAddress cap.trace lookup signature)
     resolvedType:=some "safe"
     origin:=.thresholdGroup
     principalType:=.controller
     details:=detailsWithConditions
       { resolverPath:=resolverPath cap
         threshold:=cap.threshold.map Prod.fst
         owners:=some owners
         totalSigners:=some owners.length }
       conditions }]

def signatureWitnessRow (signer : CapDict) (conditions : List Condition) (member : String) : Row where
  address := lower member
  origin := .signatureWitness
  principalType := .signatureWitness
  details := detailsWithConditions
    { resolverPath:=resolverPath signer
      membershipQuality:=some signer.membershipQuality
      signerKind:=some .finiteSet }
    (conditions ++ signer.conditions)

def rowsForSignatureWitness (cap : CapDict) (conditions : List Condition) : List Row :=
  match cap.signer with
  | none => []
  | some signer =>
    if signer.kind = .finiteSet then
      ((signer.members.getD []).filter isAddress).map (signatureWitnessRow signer conditions)
    else []

def mergedMembershipQuality (a b : Option MembershipQuality) : Option MembershipQuality :=
  if a = b then a
  else if a ∈ [some .exact,some .lowerBound] ∧ b ∈ [some .exact,some .lowerBound] then some .lowerBound
  else none

def isProvenEmpty (cap : CapDict) : Bool :=
  cap.kind == .finiteSet && cap.members == some [] && cap.membershipQuality == some .exact &&
    cap.confidence == some .enumerable && cap.subject == .root &&
    (cap.emptyReason.all fun reason => decide (reason ∈ readConfirmedEmptyReasons))

mutual
def isResolvedEmptyCapability : CapDict → Bool
  | ⟨fields,signer,children⟩ =>
    match fields.kind with
    | .finiteSet => isProvenEmpty ⟨fields,signer,children⟩
    | .and => anyResolvedEmpty children
    | .or => !children.isEmpty && allResolvedEmpty children
    | _ => false
def anyResolvedEmpty : List CapDict → Bool
  | [] => false
  | child :: rest => isResolvedEmptyCapability child || anyResolvedEmpty rest
def allResolvedEmpty : List CapDict → Bool
  | [] => true
  | child :: rest => isResolvedEmptyCapability child && allResolvedEmpty rest
end

theorem resolvedEmpty_eq (cap : CapDict) : isResolvedEmptyCapability cap =
    match cap.kind with
  | .finiteSet => isProvenEmpty cap
  | .and => anyResolvedEmpty cap.children
  | .or => !cap.children.isEmpty && allResolvedEmpty cap.children
  | _ => false := by
  cases cap with
  | mk fields signer children => rw [isResolvedEmptyCapability]

def provablyEmptyTraceSteps : List String := ["solmate_roles_authority","enumerable_role_store"]

def isRoleStoreProvablyEmpty (cap : CapDict) : Bool :=
  cap.kind == .finiteSet && (cap.members.getD []).isEmpty && cap.membershipQuality == some .exact &&
    cap.trace.any fun step => step.step ∈ provablyEmptyTraceSteps

def callerGateBasisTags : List String :=
  ["caller_tainted_authority_unresolved","caller_keyed_time_allowlist","caller_keyed_membership_allowlist"]

mutual
def isRootAuthorityBlocker : CapDict → Bool
  | ⟨fields,signer,children⟩ =>
    if fields.subject ≠ .root then false
    else if isReachNotDetermined ⟨fields,signer,children⟩ then true
    else match fields.kind with
      | .finiteSet =>
        if (fields.members.getD []).isEmpty then
          isRoleStoreProvablyEmpty ⟨fields,signer,children⟩ || !isProvenEmpty ⟨fields,signer,children⟩
        else false
      | .unsupported => true
      | .externalCheckOnly =>
        match fields.check with
        | some check => check.extra.basis.any (· ∈ callerGateBasisTags)
        | none => false
      | .and => anyBlocks children
      | .or => !children.isEmpty && allBlock children
      | _ => false
def anyBlocks : List CapDict → Bool
  | [] => false
  | child :: rest => isRootAuthorityBlocker child || anyBlocks rest
def allBlock : List CapDict → Bool
  | [] => true
  | child :: rest => isRootAuthorityBlocker child && allBlock rest
end

theorem anyResolvedEmpty_eq (children : List CapDict) :
    anyResolvedEmpty children = children.any isResolvedEmptyCapability := by
  induction children with
  | nil => rfl
  | cons child rest ih => simp [anyResolvedEmpty,ih]

theorem allResolvedEmpty_eq (children : List CapDict) :
    allResolvedEmpty children = children.all isResolvedEmptyCapability := by
  induction children with
  | nil => rfl
  | cons child rest ih => simp [allResolvedEmpty,ih]

end Psat.Surface
