import Psat.Capability.Expr
import Psat.Events.Folds

namespace Psat.Roles
open Psat.General Text
open Psat.Capability
open Psat.Events
open Psat.Indexer (Entry FetchedEventLog IndexedEventLog)

-- Where an authority's address comes from when the descriptor does not hold it.
inductive AddressSource
  | stateVariable (name : String)
  | selfAddress
  | other
deriving DecidableEq

-- The parts of a set descriptor the role adapters read.
structure Descriptor where
  authorityAddress : Option String := none
  addressSource : AddressSource := .other
  calleeSelector : Option String := none
  selectors : List String := []

structure CallFrame where
  currentFunctionSelector : Option String := none
  currentMsgSig : Option String := none

-- The index a pass reads, and a tail scanner when it has a pinned block.
structure EvaluationContext where
  contractAddress : Option String := none
  block : Option Nat := none
  stateVarValues : List (String × String) := []
  callFrame : Option CallFrame := none
  eventLogRepo : Option EventIndex := none
  tailScanner : Option TailScanner := none

def isNonzeroAddress (value : String) : Bool := isAddress value && lower value != zeroAddress

def nonzeroAddress (value : Option String) : Option String :=
  match value with
  | some value => if isNonzeroAddress value then some (lower value) else none
  | none => none

def resolveAuthorityAddress (descriptor : Descriptor) (ctx : EvaluationContext) : Option String :=
  match nonzeroAddress descriptor.authorityAddress with
  | some address => some address
  | none =>
    match descriptor.addressSource with
    | .stateVariable name => nonzeroAddress (List.lookup name ctx.stateVarValues)
    | _ => none

def isSelector (value : String) : Bool := startsWith value "0x" && value.toList.length == 10

def selectorOf (value : Option String) : Option String :=
  match value with
  | some value => if isSelector value then some (lower value) else none
  | none => none

-- `requiresAuth` passes `msg.sig`, carried on the frame, else a single selector.
def resolveTargetSelector (descriptor : Descriptor) (ctx : EvaluationContext) : Option String :=
  let frame := ctx.callFrame.bind fun frame => (selectorOf frame.currentFunctionSelector).or
    (selectorOf frame.currentMsgSig)
  match frame with
  | some selector => some selector
  | none =>
    match descriptor.selectors with
    | [selector] => selectorOf (some selector)
    | _ => none

def roleCapabilityUpdated : String := "0xa52ea92e6e955aa8ac66420b86350f7139959adfcc7e6a14eee1bd116d09860e"

def publicCapabilityUpdated : String := "0x950a343f5d10445e82a71036d3f4fb3016180a25805141932543b83e2078a93e"

def userRoleUpdated : String := "0x4c9bdd0c8e073eb5eda2250b18d8e5121ff27b62064fbeeeed4869bb99bc5bf2"

def roleTopics : List String := [roleCapabilityUpdated,publicCapabilityUpdated,userRoleUpdated]

def canCallSelector : String := "0xb7009613"

def wordAddr (word : String) : Option String :=
  if word.toList.length < 40 then none else some (lower (lastAddress word))

def wordSelector (word : String) : Option String :=
  if startsWith word "0x" ∧ 10 ≤ word.toList.length then some (lower (String.ofList (word.toList.take 10))) else none

def wordInt (word : String) : Int := (parseHex word).getD (-1)

def wordBool (word : String) : Bool :=
  match parseHex word with
  | some value => value != 0
  | none => false

abbrev CapabilityKey := Option String × Option String

-- The three dictionaries the fold fills, over every target and selector.
structure RoleFold where
  rolesByCapability : List (CapabilityKey × List Int) := []
  isPublic : List (CapabilityKey × Bool) := []
  usersByRole : List (Int × List String) := []

-- `bucket.add(item) if enabled else bucket.discard(item)`
def toggle [DecidableEq α] (item : α) (enabled : Bool) (bucket : List α) : List α :=
  if enabled then Ordered.insertKey bucket item else bucket.filter (· ≠ item)

namespace RoleFold

def rolesOf (fold : RoleFold) (key : CapabilityKey) : List Int := (List.lookup key fold.rolesByCapability).getD []

def publicAt (fold : RoleFold) (key : CapabilityKey) : Bool := (List.lookup key fold.isPublic).getD false

def usersOf (fold : RoleFold) (role : Int) : List String := (List.lookup role fold.usersByRole).getD []

def roleCapability (fold : RoleFold) (role target selector : String) (enabled : Bool) : RoleFold :=
  let key := (wordAddr target,wordSelector selector)
  {fold with rolesByCapability:=Dict.put key (toggle (wordInt role) enabled (fold.rolesOf key)) fold.rolesByCapability}

def publicCapability (fold : RoleFold) (target selector : String) (enabled : Bool) : RoleFold :=
  {fold with isPublic:=Dict.put (wordAddr target,wordSelector selector) enabled fold.isPublic}

def userRole (fold : RoleFold) (user role : String) (enabled : Bool) : RoleFold :=
  match wordAddr user with
  | none => fold
  | some user =>
    {fold with
      usersByRole:=Dict.put (wordInt role) (toggle user enabled (fold.usersOf (wordInt role))) fold.usersByRole}

def row (fold : RoleFold) (entry : Entry) : RoleFold :=
  let enabled := (entry.dataWords.head?.map wordBool).getD false
  match entry.topics with
  | [] => fold
  | topic :: rest =>
    let topic0 := lower topic
    if topic0 = roleCapabilityUpdated then
      match rest with
      | role :: target :: selector :: _ => fold.roleCapability role target selector enabled
      | _ => fold
    else if topic0 = publicCapabilityUpdated then
      match rest with
      | target :: selector :: _ => fold.publicCapability target selector enabled
      | _ => fold
    else if topic0 = userRoleUpdated then
      match rest with
      | user :: role :: _ => fold.userRole user role enabled
      | _ => fold
    else fold

end RoleFold

structure RoleState where
  fold : RoleFold
  coveredThrough : Nat
  scanWindow : Option ScanWindow
  hadRows : Bool

def foldRows (rows : List Row) : RoleFold := rows.foldl (fun fold row => fold.row row.entry) {}

def readRows (repo : EventIndex) (authority : String) (block : Nat) : Except String (List Row) :=
  match repo.iterEventRows authority roleTopics (some block) with
  | .ok rows => .ok (rows.map storedRow)
  | .error _ => .error "undecodable_event_data"

-- The folded state at the evaluated block, or the basis it cannot be read.
def loadRoleState (repo : EventIndex) (authority : String) (ctx : EvaluationContext) : Except String RoleState :=
  match repo.minIndexedBlock authority roleTopics with
  | none => .error "no_index_cursor"
  | some lastBlock =>
    match ctx.block with
    | none => .error "cursor_behind_block"
    | some block =>
      if cursorCoversBlock (some lastBlock) (some block) then do
        let rows ← readRows repo authority block
        return {fold:=foldRows rows,coveredThrough:=lastBlock,scanWindow:=none,hadRows:=!rows.isEmpty}
      else
        match ctx.tailScanner with
        | none => .error "cursor_behind_block"
        | some scanner =>
          let scan := scanner authority roleTopics lastBlock block
          if scan.complete then do
            let durable ← readRows repo authority lastBlock
            let rows := durable ++ scan.logs.map fetchedRow
            return {
              fold:=foldRows rows,coveredThrough:=scan.toBlock
              scanWindow:=some scan.traceFields,hadRows:=!rows.isEmpty}
          else .error "cursor_behind_block"

-- Only the index-wait bases defer.
def checkOnly (authority : Option String) (descriptor : Descriptor) (basis : List String) : CapabilityExpr :=
  let waits := basis.any fun reason => reason = "no_index_cursor" ∨ reason = "cursor_behind_block"
  .externalCheckOnly
    { targetAddress:=authority
      targetCallSelector:=some (match descriptor.calleeSelector with
        | some selector => if selector = "" then canCallSelector else selector
        | none => canCallSelector)
      extra:={basis,deferredPendingIndex:=waits} }

def publicCapabilityAnswer : CapabilityExpr :=
  .conditionalUniversal {kind:=.business,description:="public RolesAuthority capability"}

def exactAnswer (authority target selector : String) (state : RoleState) : CapabilityExpr :=
  let roles := state.fold.rolesOf (some target,some selector)
  { CapabilityExpr.finiteSet (roles.flatMap state.fold.usersOf) with
    lastIndexedBlock:=some state.coveredThrough
    trace:=
      [ { step:="solmate_roles_authority",authority:=some authority,target:=some target,selector:=some selector
          roles:=Sorted.sortedSet roles
          scanFromBlock:=state.scanWindow.map ScanWindow.scanFromBlock
          scanToBlock:=state.scanWindow.map ScanWindow.scanToBlock } ] }

def answer (authority target selector : String) (descriptor : Descriptor) (state : RoleState) : CapabilityExpr :=
  if state.fold.publicAt (some target,some selector) then publicCapabilityAnswer
  else if state.hadRows then exactAnswer authority target selector state
  else checkOnly (some authority) descriptor ["authority_unconfirmed_no_role_events"]

-- `(ctx.contract_address or "").lower() or None`
def targetOf (ctx : EvaluationContext) : Option String :=
  match ctx.contractAddress with
  | some address => if address = "" then none else some (lower address)
  | none => none

def enumerate (descriptor : Descriptor) (ctx : EvaluationContext) : CapabilityExpr :=
  match resolveAuthorityAddress descriptor ctx,targetOf ctx,resolveTargetSelector descriptor ctx,ctx.eventLogRepo with
  | some authority,some target,some selector,some repo =>
    match loadRoleState repo authority ctx with
    | .error basis => checkOnly (some authority) descriptor [basis]
    | .ok state => answer authority target selector descriptor state
  | authority,target,selector,repo =>
    checkOnly authority descriptor
      ((if authority.isNone then ["authority_unresolved"] else []) ++
        (if target.isNone then ["target_unresolved"] else []) ++
          (if selector.isNone then ["selector_unresolved"] else []) ++
            (if repo.isNone then ["no_event_log_repo"] else []))

end Psat.Roles
