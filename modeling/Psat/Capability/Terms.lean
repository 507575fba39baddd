import Psat.Text

namespace Psat.Capability

inductive ConditionKind
  | time
  | pause
  | reentrancy
  | business
  | selfService
  | oneShot
  | permitSig
  | denylist
deriving DecidableEq

-- A side condition that must hold at runtime but does not restrict who calls.
structure Condition where
  kind : ConditionKind
  description : String := ""
  parameterIndex : Option Nat := none
  parameterName : Option String := none
deriving DecidableEq

-- `ExternalCheck.extra`, restricted to the keys the modelled code reads.
structure CheckExtra where
  basis : List String := []
  expression : Option String := none
  deferredPendingIndex : Bool := false
  deferredTopic0s : List String := []
deriving DecidableEq

structure ExternalCheck where
  targetAddress : Option String
  targetCallSelector : Option String
  extra : CheckExtra := {}
deriving DecidableEq

-- One step of a capability's trace. A producer appends whichever keys it has.
structure TraceStep where
  step : String
  deferredPendingIndex : Bool := false
  targetAddress : Option String := none
  deferredTopic0s : List String := []
  target : Option String := none
  selector : Option String := none
  basis : Option String := none
  contract : Option String := none
  authority : Option String := none
  roles : List Int := []
  probeBlock : Option Nat := none
  foldFrontier : Option Nat := none
  scanFromBlock : Option Nat := none
  scanToBlock : Option Nat := none
deriving DecidableEq

inductive CapKind
  | finiteSet
  | thresholdGroup
  | cofiniteBlacklist
  | signatureWitness
  | externalCheckOnly
  | conditionalUniversal
  | unsupported
  | and
  | or
deriving DecidableEq

inductive MembershipQuality
  | exact
  | lowerBound
  | upperBound
deriving DecidableEq

inductive CapabilityConfidence
  | enumerable
  | partly
  | checkOnly
deriving DecidableEq

inductive EmptyReason
  | emptyByDesign
  | unreadableRevert
  | unreadableEmpty
  | needsEnumeration
  | badInput
  | notRead
  | ownerReadZero
  | slotReadZero
  | ownerReadBurnAddress
deriving DecidableEq

def readConfirmedEmptyReasons : List EmptyReason := [.ownerReadZero,.slotReadZero]

-- `root` is the function's end user, `bound` the caller of an inlined call.
inductive Subject
  | root
  | bound
deriving DecidableEq

-- `int | "not_determined"`; an as-of never computed is the absence of one.
inductive AsOf
  | height (block : Nat)
  | notDetermined
deriving DecidableEq

-- The serialized capability. A key whose absence reads differently from every value is an `Option`.
structure DictFields where
  kind : CapKind
  members : Option (List String) := none
  threshold : Option (Nat × List String) := none
  blacklist : Option (List String) := none
  check : Option ExternalCheck := none
  conditions : List Condition := []
  unsupportedReason : Option String := none
  membershipQuality : Option MembershipQuality := none
  blacklistQuality : Option MembershipQuality := none
  confidence : Option CapabilityConfidence := none
  emptyReason : Option EmptyReason := none
  lastIndexedBlock : Option Nat := none
  exactAsOf : Option AsOf := none
  trace : List TraceStep := []
  subject : Subject := .root
deriving DecidableEq

structure CapDict extends DictFields where
  signer : Option CapDict := none
  children : List CapDict := []

theorem CapDict.tree_induction {motive : CapDict → Prop}
    (node : ∀ cap : CapDict, (∀ child ∈ cap.children, motive child) → motive cap) (cap : CapDict) : motive cap :=
  @CapDict.rec motive (fun _ => True) (fun caps => ∀ cap ∈ caps, motive cap)
    (fun fields signer children _ all => node ⟨fields,signer,children⟩ all)
    trivial (fun _ _ => trivial)
    (by simp)
    (fun head tail holds rest => by
        intro cap member
        cases List.mem_cons.mp member with
        | inl first => exact first ▸ holds
        | inr later => exact rest cap later)
    cap

def reachNotDetermined : String := "reach_condition_not_determined"

def isReachNotDetermined (cap : CapDict) : Bool :=
  cap.kind == .externalCheckOnly &&
    (match cap.check with
    | some check => reachNotDetermined ∈ check.extra.basis
    | none => false)

end Psat.Capability
