import Psat.Capability.Expr

namespace Psat.Capability
open Psat.General
open CapabilityExpr (cofiniteBlacklist finiteSet)

def CapKind.text : CapKind → String
  | .finiteSet => "finite_set"
  | .thresholdGroup => "threshold_group"
  | .cofiniteBlacklist => "cofinite_blacklist"
  | .signatureWitness => "signature_witness"
  | .externalCheckOnly => "external_check_only"
  | .conditionalUniversal => "conditional_universal"
  | .unsupported => "unsupported"
  | .and => "AND"
  | .or => "OR"

def EmptyReason.text : EmptyReason → String
  | .emptyByDesign => "empty_by_design"
  | .unreadableRevert => "unreadable_revert"
  | .unreadableEmpty => "unreadable_empty"
  | .needsEnumeration => "needs_enumeration"
  | .badInput => "bad_input"
  | .notRead => "not_read"
  | .ownerReadZero => "owner_read_zero"
  | .slotReadZero => "slot_read_zero"
  | .ownerReadBurnAddress => "owner_read_burn_address"

namespace ExprFields

-- `members or []`, `blacklist or []`
def listed (cap : ExprFields) : List String := cap.members.getD []

def denied (cap : ExprFields) : List String := cap.blacklist.getD []

-- An f-string prints an absent reason as `None`.
def reasonText (cap : ExprFields) : String := cap.unsupportedReason.getD "None"

end ExprFields

def intersectQuality : MembershipQuality → MembershipQuality → Option MembershipQuality
  | .exact,.exact => some .exact
  | .exact,.lowerBound => some .lowerBound
  | .lowerBound,.exact => some .lowerBound
  | .lowerBound,.lowerBound => some .lowerBound
  | _,_ => none

def unionQuality : MembershipQuality → MembershipQuality → Option MembershipQuality
  | .exact,.exact => some .exact
  | .exact,.lowerBound => some .lowerBound
  | .lowerBound,.exact => some .lowerBound
  | .lowerBound,.lowerBound => some .lowerBound
  | .upperBound,.upperBound => some .upperBound
  | _,_ => none

def combineBlacklistQuality (qa qb : MembershipQuality) : MembershipQuality := if qa = qb then qa else .lowerBound

def CapabilityConfidence.order : CapabilityConfidence → Nat
  | .enumerable => 2
  | .partly => 1
  | .checkOnly => 0

def meetConfidence (a b : CapabilityConfidence) : CapabilityConfidence := if a.order ≤ b.order then a else b

-- The least fold height, none when an operand lacks one.
def propagatedHeight (operands : List ExprFields) : Option Nat := do
  let heights ← operands.mapM (·.lastIndexedBlock)
  heights.min?

def heightsDiffer (operands : List ExprFields) : Bool :=
  match operands.mapM (·.lastIndexedBlock) with
  | some heights => (Ordered.unique heights).length > 1
  | none => false

def publishedQuality (cap : ExprFields) : MembershipQuality :=
  if cap.kind = .cofiniteBlacklist then cap.blacklistQuality else cap.membershipQuality

def foldedAsOf (cap : ExprFields) (operands : List ExprFields) (exactAsOfLicensed : Bool) : Option AsOf :=
  if operands.any (fun op => op.exactAsOf == some .notDetermined) || heightsDiffer operands then some .notDetermined
  else if !exactAsOfLicensed then none
  else if publishedQuality cap ≠ .exact then none
  else if operands.any (fun op => op.lastIndexedBlock.isNone) then none
  else (operands.head?.bind (·.lastIndexedBlock)).map .height

def carryFoldProvenance (cap : CapabilityExpr) (operands : List CapabilityExpr) (exactAsOfLicensed : Bool := true) :
    CapabilityExpr :=
  let fields := operands.map (·.toExprFields)
  {cap with
     lastIndexedBlock := propagatedHeight fields
     exactAsOf := foldedAsOf cap.toExprFields fields exactAsOfLicensed}

-- The reason carried by already empty operands; disagreeing reasons give none.
def inheritedEmptyReason (operands : List ExprFields) : Option EmptyReason :=
  match Ordered.unique (operands.filterMap fun op =>
    if op.kind = .finiteSet ∧ op.listed = [] then op.emptyReason else none) with
  | [reason] => some reason
  | _ => none

-- Nobody passes a union only if nobody passes either operand.
def unionEmptyReason (a b : ExprFields) : Option EmptyReason :=
  let unproven := ([a,b].filterMap (·.emptyReason)).filter (· ∉ readConfirmedEmptyReasons)
  match Sorted.sortBy EmptyReason.text unproven with
  | reason :: _ => some reason
  | [] => inheritedEmptyReason [a,b]

-- `deferred_reconciler.DEFERRED_MARKER` is the field `deferredPendingIndex`.
def deferredStep : String := "deferred_external_check"

def deferralSteps (check : Option ExternalCheck) : List TraceStep :=
  match check with
  | none => []
  | some check =>
    if !check.extra.deferredPendingIndex then []
    else if check.extra.deferredTopic0s = [] then []
    else
      [{step:=deferredStep,
        deferredPendingIndex:=true,
        targetAddress:=check.targetAddress,
        deferredTopic0s:=check.extra.deferredTopic0s}]

def carriedDeferrals (operands : List CapabilityExpr) : List TraceStep :=
  operands.flatMap fun operand => operand.trace.filter (·.deferredPendingIndex)

def withOperandTraces (cap : CapabilityExpr) (operands : List CapabilityExpr) : CapabilityExpr :=
  {cap with trace := carriedDeferrals operands}

def intersectFinite (a b : CapabilityExpr) : CapabilityExpr :=
  let am := a.listed
  let bm := b.listed
  let common := canonAddresses (am.filter (· ∈ bm))
  match intersectQuality a.membershipQuality b.membershipQuality with
  | none => .structuralAnd [a,b]
  | some quality =>
    -- Emptiness created by two non-empty sets is kept as an AND.
    if common = [] ∧ am ≠ [] ∧ bm ≠ [] then .structuralAnd [a,b]
    else
      carryFoldProvenance
        {finiteSet common with
           membershipQuality := quality
           confidence := meetConfidence a.confidence b.confidence
           conditions := a.conditions ++ b.conditions
           subject := a.subject
           emptyReason := if common = [] then inheritedEmptyReason [a.toExprFields,b.toExprFields] else none
           trace := a.trace ++ b.trace}
        [a,b]

def unionFinite (a b : CapabilityExpr) : CapabilityExpr :=
  let merged := canonAddresses (a.listed ++ b.listed)
  match unionQuality a.membershipQuality b.membershipQuality with
  | none => .structuralOr [a,b]
  | some quality =>
    carryFoldProvenance
      {finiteSet merged with
         membershipQuality := quality
         confidence := meetConfidence a.confidence b.confidence
         conditions := a.conditions ++ b.conditions
         subject := a.subject
         emptyReason := if merged = [] then unionEmptyReason a.toExprFields b.toExprFields else none
         trace := a.trace ++ b.trace}
      [a,b]

def intersectFiniteBlacklist (finite blacklist : CapabilityExpr) : CapabilityExpr :=
  let out := canonAddresses (finite.listed.filter (· ∉ blacklist.denied))
  let inheritedEmpty := finite.listed.isEmpty
  carryFoldProvenance
    {finiteSet out with
       membershipQuality := finite.membershipQuality
       confidence := meetConfidence finite.confidence blacklist.confidence
       conditions := finite.conditions ++ blacklist.conditions
       emptyReason := if out = [] ∧ inheritedEmpty then inheritedEmptyReason [finite.toExprFields] else none
       trace := finite.trace ++ blacklist.trace}
    [finite,blacklist]
    (!out.isEmpty || inheritedEmpty)

def unionFiniteBlacklist (finite blacklist : CapabilityExpr) : CapabilityExpr :=
  let out := canonAddresses (blacklist.denied.filter (· ∉ finite.listed))
  carryFoldProvenance
    (withOperandTraces
        {cofiniteBlacklist out with
           confidence := meetConfidence finite.confidence blacklist.confidence
           conditions := finite.conditions ++ blacklist.conditions
           blacklistQuality := blacklist.blacklistQuality}
        [finite,blacklist])
    [finite,blacklist]

-- A denylist rebuilt from its operands' lists, qualities, deferrals and heights.
def combineBlacklists (denied : List String) (a b : CapabilityExpr) : CapabilityExpr :=
  carryFoldProvenance
    (withOperandTraces
        {cofiniteBlacklist denied with
           blacklistQuality := combineBlacklistQuality a.blacklistQuality b.blacklistQuality}
        [a,b])
    [a,b]

def attachConditions (cap : CapabilityExpr) (conditions : List Condition) : CapabilityExpr :=
  {cap with conditions := cap.conditions ++ conditions}

def selectorSuffix : Option String → String
  | none => ""
  | some selector => if selector = "" then "" else "." ++ selector

-- `text or other`
def orText (text other : Option String) : Option String :=
  if text.getD "" = "" then other else text

def boundConditionDescription (bound : ExprFields) : String :=
  let target := bound.check.bind (·.targetAddress)
  let selector := bound.check.bind (·.targetCallSelector)
  let (target,selector) :=
    match target with
    | some _ => (target,selector)
    | none =>
      match bound.trace.find? fun step => step.target.getD "" ≠ "" with
      | some step => (step.target,orText selector step.selector)
      | none => (none,selector)
  match target with
  | some target =>
    "delegated authorization: intermediate contract must be authorized for " ++ target ++ selectorSuffix selector
  | none => "delegated cross-contract authorization (intermediate-contract caller)"

def boundAsConditions (bound : ExprFields) : List Condition :=
  bound.conditions ++ [{kind:=.business,description:=boundConditionDescription bound}]

-- The bound side becomes a condition on the root side, and its deferrals
-- outlive the folding.
def foldBound (root bound : CapabilityExpr) : CapabilityExpr :=
  let out := attachConditions root (boundAsConditions bound.toExprFields)
  {out with
     trace := out.trace ++ carriedDeferrals [bound] ++
       deferralSteps (if bound.kind = .externalCheckOnly then bound.check else none)}

def intersectCrossSubject (a b : CapabilityExpr) : CapabilityExpr :=
  if b.subject = .bound then foldBound a b else foldBound b a

def externalCheckAsCondition : Option ExternalCheck → Option Condition
  | none => none
  | some check =>
    match check.targetAddress with
    | some target =>
      some {kind:=.denylist,
            description:="denylist exclusion via external check " ++ target ++ selectorSuffix check.targetCallSelector}
    | none => some {kind:=.denylist,description:="denylist exclusion via external check"}

def intersect (a b : CapabilityExpr) : CapabilityExpr :=
  if a.kind = .unsupported then .unsupported ("intersect_with_unsupported_" ++ a.reasonText)
  else if b.kind = .unsupported then .unsupported ("intersect_with_unsupported_" ++ b.reasonText)
  else if a.kind = .conditionalUniversal then attachConditions b a.conditions
  else if b.kind = .conditionalUniversal then attachConditions a b.conditions
  else if a.subject ≠ b.subject then intersectCrossSubject a b
  else
    match a.kind,b.kind with
    | .finiteSet,.finiteSet => intersectFinite a b
    | .finiteSet,.cofiniteBlacklist => intersectFiniteBlacklist a b
    | .cofiniteBlacklist,.finiteSet => intersectFiniteBlacklist b a
    | .cofiniteBlacklist,.cofiniteBlacklist => combineBlacklists (canonAddresses (a.denied ++ b.denied)) a b
    | _,_ => .structuralAnd [a,b]

def union (a b : CapabilityExpr) : CapabilityExpr :=
  if a.kind = .unsupported then .structuralOr [a,b]
  else if b.kind = .unsupported then .structuralOr [a,b]
  else if a.subject ≠ b.subject then .structuralOr [a,b]
  else
    match a.kind,b.kind with
    | .finiteSet,.finiteSet => unionFinite a b
    | .cofiniteBlacklist,.cofiniteBlacklist => combineBlacklists (canonAddresses (a.denied.filter (· ∈ b.denied))) a b
    | .finiteSet,.cofiniteBlacklist => unionFiniteBlacklist a b
    | .cofiniteBlacklist,.finiteSet => unionFiniteBlacklist b a
    | .conditionalUniversal,.conditionalUniversal => if a.conditions = b.conditions then a else .structuralOr [a,b]
    | _,_ => .structuralOr [a,b]

-- The complement of one node; AND and OR are handled by their children.
def complementFinite (a : CapabilityExpr) : CapabilityExpr :=
  carryFoldProvenance
    {cofiniteBlacklist a.listed with
       blacklistQuality := if a.membershipQuality ≠ .exact then .lowerBound else .exact
       confidence := a.confidence
       conditions := a.conditions
       subject := a.subject}
    [a]

def complementBlacklist (a : CapabilityExpr) : CapabilityExpr :=
  carryFoldProvenance
    {finiteSet a.denied with
       membershipQuality := if a.blacklistQuality = .exact then .exact else .lowerBound
       confidence := a.confidence
       conditions := a.conditions
       subject := a.subject}
    [a]

-- A falsy probe is a denylist nobody enumerated.
def complementCheck (a : CapabilityExpr) : CapabilityExpr :=
  {cofiniteBlacklist [] with
     blacklistQuality := .lowerBound
     confidence := a.confidence
     conditions := a.conditions ++ (externalCheckAsCondition a.check).toList
     subject := a.subject
     trace := deferralSteps a.check}

mutual

def negate : CapabilityExpr → CapabilityExpr
  | ⟨fields,signer,children⟩ =>
    match fields.kind with
    | .finiteSet => complementFinite ⟨fields,signer,children⟩
    | .cofiniteBlacklist => complementBlacklist ⟨fields,signer,children⟩
    | .externalCheckOnly => complementCheck ⟨fields,signer,children⟩
    | .conditionalUniversal => .unsupported "negate_conditional_universal"
    | .thresholdGroup => .unsupported ("negate_unsupported_capability_" ++ fields.kind.text)
    | .signatureWitness => .unsupported ("negate_unsupported_capability_" ++ fields.kind.text)
    | .unsupported => .unsupported ("negate_of_" ++ fields.reasonText)
    | .and => .structuralOr (negateAll children)
    | .or => .structuralAnd (negateAll children)

def negateAll : List CapabilityExpr → List CapabilityExpr
  | [] => []
  | child :: rest => negate child :: negateAll rest

end

theorem negateAll_eq_map : negateAll children = children.map negate := by
  induction children with
  | nil => rfl
  | cons child rest ih => rw [negateAll,ih,List.map_cons]

theorem negate_eq : negate a =
    match a.kind with
  | .finiteSet => complementFinite a
  | .cofiniteBlacklist => complementBlacklist a
  | .externalCheckOnly => complementCheck a
  | .conditionalUniversal => .unsupported "negate_conditional_universal"
  | .thresholdGroup => .unsupported ("negate_unsupported_capability_" ++ a.kind.text)
  | .signatureWitness => .unsupported ("negate_unsupported_capability_" ++ a.kind.text)
  | .unsupported => .unsupported ("negate_of_" ++ a.reasonText)
  | .and => .structuralOr (a.children.map negate)
  | .or => .structuralAnd (a.children.map negate) := by
  cases a with
  | mk fields signer children =>
    rw [negate,negateAll_eq_map]

theorem negate_finite (kind : a.kind = .finiteSet) : negate a = complementFinite a := by
  rw [negate_eq,kind]

theorem negate_cofinite (kind : a.kind = .cofiniteBlacklist) : negate a = complementBlacklist a := by
  rw [negate_eq,kind]

theorem negate_check (kind : a.kind = .externalCheckOnly) : negate a = complementCheck a := by
  rw [negate_eq,kind]

theorem negate_open (kind : a.kind = .conditionalUniversal) : negate a = .unsupported "negate_conditional_universal" :=
    by
  rw [negate_eq,kind]

theorem negate_threshold (kind : a.kind = .thresholdGroup) :
    negate a = .unsupported ("negate_unsupported_capability_" ++ a.kind.text) := by
  rw [negate_eq,kind]

theorem negate_witness (kind : a.kind = .signatureWitness) :
    negate a = .unsupported ("negate_unsupported_capability_" ++ a.kind.text) := by
  rw [negate_eq,kind]

theorem negate_unsupported (kind : a.kind = .unsupported) : negate a = .unsupported ("negate_of_" ++ a.reasonText) := by
  rw [negate_eq,kind]

theorem negate_and (kind : a.kind = .and) : negate a = .structuralOr (a.children.map negate) := by
  rw [negate_eq,kind]

theorem negate_or (kind : a.kind = .or) : negate a = .structuralAnd (a.children.map negate) := by
  rw [negate_eq,kind]

end Psat.Capability
