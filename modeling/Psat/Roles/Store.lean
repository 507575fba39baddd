import Psat.Roles.Solmate

namespace Psat.Roles.Store
open Psat.General
open Psat.Capability
open Psat.Events
open Psat.Indexer (Entry FetchedEventLog IndexedEventLog)

-- One grant or revoke event, for a generic fold into (holder, role, active).
structure RoleEventSpec where
  topic0 : String
  holderTopicIndex : Nat
  roleTopicIndex : Nat
  activeTopicIndex : Option Nat
  activeWhen : Option Bool
deriving DecidableEq

structure RoleStoreStandard where
  name : String
  grantEvents : List RoleEventSpec
deriving DecidableEq

def RoleStoreStandard.topic0s (standard : RoleStoreStandard) : List String :=
  standard.grantEvents.map RoleEventSpec.topic0

def roleSet : String := "0xaddc47d7e02c95c00ec667676636d772a589ffbf0663cfd7cd4dd3d4758201b8"

def roleGranted : String := "0x2f8788117e7eff1d82e926ec794901d17c78024a50270940304540a733656f0d"

def roleRevoked : String := "0xf6391f5c32d9c69d2a47ea670b442974b53935d1edc7fd64eb21e047a839171b"

def soladyEnumerableRoles : RoleStoreStandard where
  name := "solady_enumerable_roles"
  grantEvents := [{topic0:=roleSet,holderTopicIndex:=1,roleTopicIndex:=2,activeTopicIndex:=some 3,activeWhen:=none}]

def ozAccessControlEnumerable : RoleStoreStandard where
  name := "oz_access_control_enumerable"
  grantEvents :=
    [ {topic0:=roleGranted,holderTopicIndex:=2,roleTopicIndex:=1,activeTopicIndex:=none,activeWhen:=some true},
        {topic0:=roleRevoked,holderTopicIndex:=2,roleTopicIndex:=1,activeTopicIndex:=none,activeWhen:=some false} ]

def standards : List RoleStoreStandard := [soladyEnumerableRoles,ozAccessControlEnumerable]

def allTopic0s : List String := Sorted.sortedSet (standards.flatMap RoleStoreStandard.topic0s)

def specByTopic0 (topic0 : String) : Option RoleEventSpec :=
  (standards.flatMap RoleStoreStandard.grantEvents).reverse.find? fun spec => spec.topic0 = topic0

-- `"0x" + word[-40:].lower()`, but never the zero address.
def wordToAddress (word : String) : Option String :=
  if word.toList.length < 40 then none
  else
    let address := Text.lower (lastAddress word)
    if address = Text.zeroAddress then none else some address

def roleWordFromValue (value : String) : Option String :=
  match value.toList with
  | '0' :: 'x' :: body =>
    if 64 < body.length then none
    else some (Text.lower (String.ofList ('0' :: 'x' :: (List.replicate (64 - body.length) '0' ++ body))))
  | _ => none

def wordInt (word : String) : Int := (parseHex word).getD 0

def RoleEventSpec.active (spec : RoleEventSpec) (topics : List String) : Bool :=
  match spec.activeTopicIndex with
  | some index =>
    match topics[index]? with
    | some word => wordInt word != 0
    | none => false
  | none => spec.activeWhen.getD false

def rowToggle (entry : Entry) : Option ((String × String) × Bool) := do
  let topic ← entry.topics.head?
  let spec ← specByTopic0 (Text.lower topic)
  let holder ← entry.topics[spec.holderTopicIndex]?.bind wordToAddress
  let role ← entry.topics[spec.roleTopicIndex]?.bind roleWordFromValue
  return ((holder,role),spec.active entry.topics)

-- Current holders of any role, the last write of each (holder, role) deciding.
def foldActiveHolders (rows : List Row) : List String :=
  let state := Dict.write [] (rows.filterMap fun row => rowToggle row.entry)
  Ordered.unique ((state.filter Prod.snd).map fun entry => entry.1.1)

def activeRoles (rows : List Row) : List String :=
  Ordered.unique (rows.filterMap fun row => do
    let topic ← row.entry.topics.head?
    let spec ← specByTopic0 (Text.lower topic)
    row.entry.topics[spec.roleTopicIndex]?.bind roleWordFromValue)

-- The gate asked about a random address and about each candidate, in one call.
inductive Probe
  | transportFailed
  | answered (controlPassed : Bool) (survivors : List String)

-- What a pass reads besides the index. Each may fail.
structure StoreContext extends EvaluationContext where
  rpc : Bool := true
  head : Option Nat := none
  standard : String → Option RoleStoreStandard
  calleeSelector : Descriptor → Option String
  controllers : String → Option (List String)
  probe : String → String → List String → Nat → Probe
  getterMismatch : String → RoleStoreStandard → List String → List String → Nat → Bool
  scanEventTail : TailScanner

def resolveAuthority (descriptor : Descriptor) (ctx : EvaluationContext) : Option String :=
  match resolveAuthorityAddress descriptor ctx with
  | some address => some address
  | none =>
    match descriptor.addressSource with
    | .selfAddress => nonzeroAddress ctx.contractAddress
    | _ => none

def checkOnly (authority calleeSelector : Option String) (basis : List String) : CapabilityExpr :=
  let waits := basis.any fun reason => reason = "no_index_cursor" ∨ reason = "cursor_behind_block"
  .externalCheckOnly
    {targetAddress:=authority,targetCallSelector:=calleeSelector,extra:={basis,deferredPendingIndex:=waits}}

-- One height for fold, probe and trace: the pass's block, else the head.
def pinProbeBlock (ctx : StoreContext) : Option Nat := ctx.block.or ctx.head

structure Gathered where
  rows : List Row
  cursorBlock : Nat
  pinnedBlock : Nat
  scanWindow : Option ScanWindow
deriving DecidableEq

def readRows (repo : EventIndex) (authority : String) (topic0s : List String) (block : Nat) :
    Except String (List Row) :=
  match repo.iterEventRows authority topic0s (some block) with
  | .ok rows => .ok (rows.map storedRow)
  | .error _ => .error "undecodable_event_data"

def gatherRows (repo : EventIndex) (authority : String) (topic0s : List String) (ctx : StoreContext) :
    Except String Gathered :=
  match repo.minIndexedBlock authority topic0s with
  | none => .error "no_index_cursor"
  | some cursorBlock =>
    if ¬ ctx.rpc then .error "no_rpc_for_probe"
    else
      match pinProbeBlock ctx with
      | none => .error "probe_unavailable"
      | some pinnedBlock =>
        if cursorCoversBlock (some cursorBlock) (some pinnedBlock) then do
          let rows ← readRows repo authority topic0s pinnedBlock
          return {rows,cursorBlock,pinnedBlock,scanWindow:=none}
        else if ctx.block.isNone then .error "cursor_behind_block"
        else
          let scan := ctx.scanEventTail authority topic0s cursorBlock pinnedBlock
          if scan.complete then do
            let durable ← readRows repo authority topic0s cursorBlock
            return {rows:=durable ++ scan.logs.map fetchedRow,cursorBlock,pinnedBlock,scanWindow:=some scan.traceFields}
          else .error "cursor_behind_block"

def Gathered.foldFrontier (gathered : Gathered) : Nat := max gathered.cursorBlock gathered.pinnedBlock

def traceStepName : String := "enumerable_role_store"

def storeStep (authority : String) (gathered : Gathered) : TraceStep where
  step := traceStepName
  authority := some authority
  probeBlock := some gathered.pinnedBlock
  foldFrontier := some gathered.foldFrontier
  scanFromBlock := gathered.scanWindow.map ScanWindow.scanFromBlock
  scanToBlock := gathered.scanWindow.map ScanWindow.scanToBlock

def exactMembers (authority : String) (members : List String) (gathered : Gathered) : CapabilityExpr :=
  { CapabilityExpr.finiteSet members with
    lastIndexedBlock:=some (if gathered.scanWindow.isSome then gathered.foldFrontier else gathered.cursorBlock)
    trace:=[storeStep authority gathered] }

-- Each candidate confirmed against the live gate.
def confirm (authority calleeSelector : String) (standard : RoleStoreStandard) (ctx : StoreContext)
    (gathered : Gathered) :
    Except String CapabilityExpr :=
  if gathered.rows.isEmpty then .error "authority_unconfirmed_no_role_events"
  else
    let holders := foldActiveHolders gathered.rows
    match ctx.controllers authority with
    | none => .error "registry_context_error"
    | some controllers =>
      let candidates := Sorted.sortedSet (holders ++ controllers)
      match ctx.probe authority calleeSelector candidates gathered.pinnedBlock with
      | .transportFailed => .error "probe_unavailable"
      | .answered controlPassed survivors =>
        if controlPassed then .error "negative_control_passed"
        else if survivors.isEmpty ∧ ¬ candidates.isEmpty then .error "no_candidate_passed_gate"
        else if ctx.getterMismatch authority standard (activeRoles gathered.rows) holders gathered.pinnedBlock then
          .error "role_fold_getter_mismatch"
        else .ok (exactMembers authority survivors gathered)

def resolve (repo : EventIndex) (authority calleeSelector : String) (ctx : StoreContext) :
    Except String (RoleStoreStandard × Gathered × CapabilityExpr) :=
  match ctx.standard authority with
  | none => .error "standard_undetected"
  | some standard => do
    let gathered ← gatherRows repo authority standard.topic0s ctx
    let cap ← confirm authority calleeSelector standard ctx gathered
    return (standard,gathered,cap)

def enumerate (descriptor : Descriptor) (ctx : StoreContext) : CapabilityExpr :=
  match resolveAuthority descriptor ctx.toEvaluationContext,ctx.calleeSelector descriptor,ctx.eventLogRepo with
  | some authority,some calleeSelector,some repo =>
    match resolve repo authority calleeSelector ctx with
    | .error basis => checkOnly (some authority) (some calleeSelector) [basis]
    | .ok (_,_,cap) => cap
  | authority,calleeSelector,repo =>
    checkOnly authority calleeSelector
      ((if authority.isNone then ["authority_unresolved"] else []) ++
          (if calleeSelector.isNone then ["selector_unresolved"] else []) ++
          (if repo.isNone then ["no_event_log_repo"] else []))

end Psat.Roles.Store
