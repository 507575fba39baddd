import Psat.Capability.Algebra

namespace Psat.Evaluator
open Psat.Capability

inductive LeafKind
  | membership
  | equality
  | externalBool
  | signatureAuth
  | authorization
  | comparison
  | unsupported
deriving DecidableEq

-- The roles whose leaves are side conditions, and the others.
inductive Role
  | reentrancy
  | pause
  | business
  | time
  | oneShot
  | callerAuthority
  | delegatedAuthority
deriving DecidableEq

def Role.isSide : Role → Bool
  | .callerAuthority => false
  | .delegatedAuthority => false
  | _ => true

structure Descriptor where
  valuePredicate : Bool := false
  keySources : List String := []
deriving DecidableEq

-- Operands are named by their sources.
structure Leaf where
  kind : LeafKind
  authorityRole : Option Role := none
  referencesMsgSender : Bool := false
  basis : List String := []
  operands : List String := []
  absorbedOperands : List String := []
  setDescriptor : Option Descriptor := none
  expression : Option String := none
  unsupportedReason : Option String := none
  authorityNotDetermined : Bool := false
  reachRead : Bool := false
deriving DecidableEq

inductive PredicateTree
  | leaf (leaf : Option Leaf)
  | and (children : List PredicateTree)
  | or (children : List PredicateTree)
  | other (op : String) (children : List PredicateTree)

structure ReachTruth where
  holds : Option Bool
  reason : Option String := none
  calldata : List (String × String) := []

-- One evaluation's environment; `authority` answers the leaves that say who may call.
structure Context where
  contractAddress : Option String := none
  earnedPublic : Bool := true
  enumerate : Descriptor → CapabilityExpr
  authority : Leaf → CapabilityExpr
  readReach : Leaf → ReachTruth
  reachExpression : PredicateTree → String
  callerTainted : Leaf → Bool
  permissionlessCallerShape : Leaf → Bool
  callerKeyedTimeAllowlist : Leaf → Bool
  callerKeyedMembershipAllowlist : Leaf → Bool
  callerKeyedTimeDenylist : Leaf → Bool
  permitShape : Leaf → Bool
  callerGateBasis : Leaf → String

-- Nothing is known of any leaf.
def Context.silent : Context where
  enumerate := fun _ => .unsupported "no_adapter"
  authority := fun _ => .unsupported "no_adapter"
  readReach := fun _ => {holds:=none}
  reachExpression := fun _ => ""
  callerTainted := fun _ => false
  permissionlessCallerShape := fun _ => false
  callerKeyedTimeAllowlist := fun _ => false
  callerKeyedMembershipAllowlist := fun _ => false
  callerKeyedTimeDenylist := fun _ => false
  permitShape := fun _ => false
  callerGateBasis := fun _ => ""

def callerSources : List String := ["msg_sender","tx_origin","signature_recovery","root_caller"]

def reachConditionBasis : String := "revert_path_condition"

def Leaf.text (leaf : Leaf) : String := leaf.expression.getD ""

def isReachCondition (leaf : Leaf) : Bool := reachConditionBasis ∈ leaf.basis

def isReadReachCondition (leaf : Leaf) : Bool :=
  isReachCondition leaf && !leaf.referencesMsgSender &&
    !(leaf.operands ++ leaf.absorbedOperands ++ (leaf.setDescriptor.map Descriptor.keySources).getD []).any
      (· ∈ callerSources)

mutual

def isReadReachTree : PredicateTree → Bool
  | .leaf leaf => leaf.any isReadReachCondition
  | .and children => !children.isEmpty && allReadReach children
  | .or children => !children.isEmpty && allReadReach children
  | .other _ children => !children.isEmpty && allReadReach children

def allReadReach : List PredicateTree → Bool
  | [] => true
  | child :: rest => isReadReachTree child && allReadReach rest

end

def isRecoveredSignerMembership (leaf : Leaf) : Bool :=
  leaf.kind = .membership && ((leaf.setDescriptor.map Descriptor.keySources).getD []).any (· == "signature_recovery")

def hasCallerKeyedValuePredicate (leaf : Leaf) : Bool :=
  leaf.setDescriptor.any fun descriptor => descriptor.valuePredicate && descriptor.keySources.any (· ∈ callerSources)

def isOpaqueBoolReturnPredicate (leaf : Leaf) : Bool :=
  "bool-return predicate" ∈ leaf.basis && leaf.setDescriptor.isNone && leaf.kind = .equality &&
    leaf.operands.any (· ∈ ["computed","external_call","top"])

def conditionFromLeaf (ctx : Context) (leaf : Leaf) : Condition where
  kind :=
    match leaf.authorityRole with
    | some .time => .time
    | some .pause => .pause
    | some .reentrancy => .reentrancy
    | some .oneShot => .oneShot
    | _ => if ctx.permitShape leaf then .permitSig else .business
  description := leaf.text

-- Conjuncts that agree on the calldata each was found to hold for.
def joinCalldata (truths : List ReachTruth) : Option (List (String × String)) :=
  (truths.flatMap ReachTruth.calldata).foldlM (fun calldata entry =>
      match List.lookup entry.1 calldata with
      | none => some (calldata ++ [entry])
      | some value => if value = entry.2 then some calldata else none) []

def combineReach (decisive : Bool) (truths : List ReachTruth) : ReachTruth :=
  match truths.find? (fun truth => truth.holds = some decisive) with
  | some truth => truth
  | none =>
    match truths.find? (fun truth => truth.holds.isNone) with
    | some unread => {holds:=none,reason:=unread.reason}
    | none =>
      if decisive then {holds:=some false}
      else match joinCalldata truths with
        | none => {holds:=none,reason:=some "reach_condition_calldata_not_jointly_witnessed"}
        | some calldata => {holds:=some true,calldata}

mutual

def reachTruth (ctx : Context) : PredicateTree → ReachTruth
  | .leaf none => {holds:=none,reason:=some "reach_condition_unstated"}
  | .leaf (some leaf) =>
    if leaf.reachRead then ctx.readReach leaf
    else {holds:=none,reason:=some (leaf.unsupportedReason.getD "reach_condition_unstated")}
  | .and children => combineReach false (reachTruths ctx children)
  | .or children => combineReach true (reachTruths ctx children)
  | .other _ children => combineReach true (reachTruths ctx children)

def reachTruths (ctx : Context) : List PredicateTree → List ReachTruth
  | [] => []
  | child :: rest => reachTruth ctx child :: reachTruths ctx rest

end

def bareCheck (target : Option String) (basis : List String) (expression : Option String) : CapabilityExpr :=
  .externalCheckOnly {targetAddress:=target,targetCallSelector:=none,extra:={basis,expression}}

def reachStep : TraceStep := {step:="reach_condition_read"}

def reachCapability (ctx : Context) (truth : ReachTruth) (tree : PredicateTree) : CapabilityExpr :=
  let expression := ctx.reachExpression tree
  let cap : CapabilityExpr :=
    match truth.holds with
    | some true =>
      let sent := ", ".intercalate (truth.calldata.map fun entry => entry.1 ++ "=" ++ entry.2)
      let when_ := if sent = "" then "at the analysis block" else "with calldata " ++ sent
      .conditionalUniversal {kind:=.business,description:="holds " ++ when_ ++ ": " ++ expression}
    | some false => .finiteSet []
    | none => bareCheck none [reachNotDetermined,truth.reason.getD "reach_condition_unread"] (some expression)
  {cap with trace:=[reachStep]}

-- A leaf of a side role: open with its condition, unless it discriminates on the caller.
def evaluateSideLeaf (ctx : Context) (leaf : Leaf) : CapabilityExpr :=
  let gate : Option CapabilityExpr :=
    if ctx.earnedPublic then
      if ctx.callerTainted leaf && !ctx.permissionlessCallerShape leaf then
        some (bareCheck none [ctx.callerGateBasis leaf] leaf.expression)
      else none
    else if ctx.callerKeyedTimeAllowlist leaf then some (bareCheck none ["caller_keyed_time_allowlist"] leaf.expression)
    else if ctx.callerKeyedMembershipAllowlist leaf then some
      (bareCheck none ["caller_keyed_membership_allowlist"] leaf.expression)
    else none
  let enumerated : Option CapabilityExpr :=
    if hasCallerKeyedValuePredicate leaf then
      (leaf.setDescriptor.map ctx.enumerate).filter fun cap => cap.kind = .finiteSet && !(cap.members.getD []).isEmpty
    else none
  if isOpaqueBoolReturnPredicate leaf then bareCheck none ["opaque_bool_return_predicate"] leaf.expression
  else match enumerated with
    | some cap => cap
    | none => match gate with
      | some cap => cap
      | none =>
        if ctx.callerTainted leaf && ctx.callerKeyedTimeDenylist leaf then
          {CapabilityExpr.cofiniteBlacklist [] with blacklistQuality:=.lowerBound,
                                                    conditions:=[conditionFromLeaf ctx leaf]}
        else .conditionalUniversal (conditionFromLeaf ctx leaf)

def evaluateLeaf (ctx : Context) (leaf : Leaf) : CapabilityExpr :=
  if isReadReachCondition leaf then reachCapability ctx (reachTruth ctx (.leaf (some leaf))) (.leaf (some leaf))
  else if isRecoveredSignerMembership leaf || leaf.authorityNotDetermined then
    bareCheck ctx.contractAddress ["caller_tainted_authority_unresolved","signer_authorization_unresolved"] none
  else if leaf.kind = .unsupported then .unsupported (leaf.unsupportedReason.getD "unsupported")
  else if leaf.authorityRole.any Role.isSide then evaluateSideLeaf ctx leaf
  else ctx.authority leaf

def conditionGroupDescription (conditions : List Condition) : String :=
  match (conditions.map Condition.description).filter (· ≠ "") with
  | [] => ""
  | [description] => description
  | descriptions => " AND ".intercalate (descriptions.map fun description => "(" ++ description ++ ")")

mutual

-- The conditions of a tree that holds nothing but side conditions free of the caller.
def sideConditionsFromTree (ctx : Context) : PredicateTree → Option (List Condition)
  | .leaf none => none
  | .leaf (some leaf) =>
    if isRecoveredSignerMembership leaf || leaf.authorityNotDetermined then none
    else if leaf.authorityRole.any Role.isSide && !leaf.referencesMsgSender then some [conditionFromLeaf ctx leaf]
    else none
  | .and children => if children.isEmpty then none else (sideConditionsFromTrees ctx children).map List.flatten
  | .or children =>
    if children.isEmpty then none
    else (sideConditionsFromTrees ctx children).map fun groups =>
      let description := " OR ".intercalate ((groups.map conditionGroupDescription).filter (· ≠ ""))
      [{kind:=.business,description:=if description = "" then "non-caller side condition" else description}]
  | .other _ _ => none

def sideConditionsFromTrees (ctx : Context) : List PredicateTree → Option (List (List Condition))
  | [] => some []
  | child :: rest => do
    let conditions ← sideConditionsFromTree ctx child
    let others ← sideConditionsFromTrees ctx rest
    return conditions :: others

end

def sideConditionCapability (ctx : Context) (tree : PredicateTree) : Option CapabilityExpr :=
  (sideConditionsFromTree ctx tree).map fun conditions => {kind:=.conditionalUniversal,conditions}

def foldCapabilities (combine : CapabilityExpr → CapabilityExpr → CapabilityExpr) : List CapabilityExpr → CapabilityExpr
  | [] => .unsupported "empty_branch"
  | first :: rest => rest.foldl combine first

-- The alternatives of an OR that stand, and a step for each that was refuted.
structure Alternatives where
  evaluated : List CapabilityExpr := []
  refuted : List TraceStep := []

def joinAlternatives (ctx : Context) (children : List PredicateTree) (alternatives : Alternatives) : CapabilityExpr :=
  match alternatives.evaluated with
  | [] => reachCapability ctx {holds:=none,reason:=some "every_reach_alternative_refuted"} (children.headD (.leaf none))
  | evaluated =>
    let result := foldCapabilities union evaluated
    {result with trace:=result.trace ++ alternatives.refuted}

mutual

def evaluateTree (ctx : Context) : PredicateTree → CapabilityExpr
  | .leaf none => .unsupported "empty_leaf"
  | .leaf (some leaf) => evaluateLeaf ctx leaf
  | .and children =>
    if children.isEmpty then .unsupported "empty_branch"
    else foldCapabilities intersect (evaluateConjuncts ctx (decide (1 < children.length)) children)
  | .or children =>
    if children.isEmpty then .unsupported "empty_branch"
    else joinAlternatives ctx children (evaluateAlternatives ctx children)
  | .other op children => if children.isEmpty then .unsupported "empty_branch" else .unsupported ("unknown_op_" ++ op)

-- Beside a sibling, a tree of side conditions is read as its conditions.
def evaluateConjuncts (ctx : Context) (several : Bool) : List PredicateTree → List CapabilityExpr
  | [] => []
  | child :: rest =>
    ((if several then sideConditionCapability ctx child else none).getD (evaluateTree ctx child)) ::
        evaluateConjuncts ctx several rest

def evaluateAlternatives (ctx : Context) : List PredicateTree → Alternatives
  | [] => {}
  | child :: rest =>
    let others := evaluateAlternatives ctx rest
    if isReadReachTree child then
      let truth := reachTruth ctx child
      if truth.holds = some false then {others with refuted:=reachStep :: others.refuted}
      else {others with evaluated:=reachCapability ctx truth child :: others.evaluated}
    else {others with evaluated:=evaluateTree ctx child :: others.evaluated}

end

def evaluate (ctx : Context) : Option PredicateTree → CapabilityExpr
  | none => .conditionalUniversal {kind:=.business,description:="no gating"}
  | some tree => evaluateTree ctx tree

end Psat.Evaluator
