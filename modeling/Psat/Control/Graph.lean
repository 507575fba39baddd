import Psat.Text
import Psat.General.Dict
import Psat.General.Loop

namespace Psat.Control
open Psat.General Text

abbrev Address := String

inductive ResolvedType
  | zero | eoa | safe | timelock | proxyAdmin | contract | unknown | offChainWitness | crossChainAuthority
deriving DecidableEq

def ResolvedType.analyzable (type : ResolvedType) : Bool := type = .contract || type = .timelock || type = .proxyAdmin

def resolvedTypeRank : ResolvedType → Nat
  | .unknown => 0
  | .contract => 1
  | _ => 2

inductive NodeType
  | contract | principal
deriving DecidableEq

inductive Relation
  | controllerValue | controllerValueUnattributed | externalCallTarget | rolePrincipal | mappingMember
  | safeOwner | timelockOwner | proxyAdminOwner
deriving DecidableEq

def Relation.nested (relation : Relation) : Bool :=
  relation = .safeOwner || relation = .timelockOwner || relation = .proxyAdminOwner

inductive Provenance
  | callTarget | callerGate
deriving DecidableEq

-- The keys of a classification that the walk reads.
structure Details where
  owners : Option (List String) := none
  owner : Option String := none
deriving DecidableEq

def Details.update (details more : Details) : Details := ⟨more.owners.or details.owners,more.owner.or details.owner⟩

structure ControllerValue where
  controllerId : String
  value : String
  resolvedType : ResolvedType
  details : Details := {}
  source : Option String := none
  authorityProvenance : Option Provenance := none

structure RolePrincipal where
  address : Address
  resolvedType : ResolvedType
  details : Details := {}
  roles : List Nat := []

structure EnumeratedPrincipal where
  address : Address
  mappingName : String
deriving DecidableEq

-- A contract's writer events; `holdsCheckedKey` is the role filter's verdict on a member.
structure Replay where
  principals : List EnumeratedPrincipal
  holdsCheckedKey : EnumeratedPrincipal → Bool := fun _ => true
  complete : Bool := true

structure PredicateTrees where
  replay : Option Replay := none
  authorityContractVars : Option (List String) := some []

structure Artifacts where
  name : String
  controllerValues : List ControllerValue := []
  rolePrincipals : List RolePrincipal := []
  predicateTrees : Option PredicateTrees := none

-- Materialization and classification; `none` is a contract that cannot be materialized.
structure World where
  artifacts : Address → Option Artifacts
  classify : Address → ResolvedType × Details

structure Node where
  nodeType : NodeType
  resolvedType : ResolvedType
  label : String
  contractName : Option String := none
  depth : Nat
  analyzed : Bool := false
  -- whether the member replay settled, where one was run
  mappingEnumeration : Option Bool := none

abbrev Nodes := List (Address × Node)

def mergeNode (current payload : Node) : Node where
  nodeType := if payload.analyzed then .contract else current.nodeType
  resolvedType := if resolvedTypeRank current.resolvedType ≤
    resolvedTypeRank payload.resolvedType then payload.resolvedType else current.resolvedType
  label := if payload.label = "" then current.label else payload.label
  contractName := payload.contractName.or current.contractName
  depth := min current.depth payload.depth
  analyzed := current.analyzed || payload.analyzed
  mappingEnumeration := current.mappingEnumeration

def ensureNode (nodes : Nodes) (address : Address) (payload : Node) : Nodes :=
  match nodes.lookup address with
  | none => Dict.put address payload nodes
  | some current => Dict.put address (mergeNode current payload) nodes

structure Edge where
  fromId : Address
  toId : Address
  relation : Relation
  label : String
  sourceControllerId : Option String := none
deriving DecidableEq

def edgeKey (edge : Edge) : Address × Address × Relation × String × Option String :=
  (edge.fromId,edge.toId,edge.relation,edge.label,if edge.relation.nested then none else edge.sourceControllerId)

def addEdge (edges : List Edge) (edge : Edge) : List Edge :=
  if edges.any (edgeKey · = edgeKey edge) then edges else edges ++ [edge]

def nestedPrincipalsForDetails (type : ResolvedType) (details : Details) : List (Address × Relation × String) :=
  match type with
  | .safe =>
    ((details.owners.getD []).filter (startsWith · "0x")).map fun owner => (lower owner,.safeOwner,"safe owner")
  | .timelock =>
    (details.owner.toList.filter (startsWith · "0x")).map fun owner => (lower owner,.timelockOwner,"timelock owner")
  | .proxyAdmin =>
    (details.owner.toList.filter (startsWith · "0x")).map fun owner =>
      (lower owner,.proxyAdminOwner,"proxy admin owner")
  | _ => []

structure PendingContract where
  address : Address
  depth : Nat
deriving DecidableEq

structure Withheld where
  depth : Nat
  principals : List EnumeratedPrincipal

structure State where
  queue : List PendingContract
  queued : List Address
  processed : List Address := []
  nodes : Nodes := []
  edges : List Edge := []
  withheld : List (Address × Withheld) := []
  authorityVars : List (Address × Option (List String)) := []

def maybeQueueAddress (maxDepth : Nat) (s : State) (address : Address) (depth : Nat) : State :=
  if address ∈ s.queued ∨ maxDepth < depth then s
  else {s with queue:=s.queue ++ [⟨address,depth⟩],queued:=s.queued ++ [address]}

-- A principal met: its node, its edge, and its place in the queue if it can be analyzed.
def showPrincipal (maxDepth : Nat) (s : State) (edge : Edge) (type : ResolvedType) (label : String) (depth : Nat) :
    State :=
  let shown : State := {s with
    nodes:=ensureNode s.nodes edge.toId
      {nodeType:=if type.analyzable then .contract else .principal,resolvedType:=type,label:=label,depth:=depth}
    edges:=addEdge s.edges edge}
  if type.analyzable then maybeQueueAddress maxDepth shown edge.toId depth else shown

def addNestedPrincipals (world : World) (maxDepth : Nat) (s : State) (fromId : Address)
    (sourceControllerId : Option String) (type : ResolvedType)
    (details : Details) (depth : Nat) : State :=
  (nestedPrincipalsForDetails type details).foldl (fun s nested =>
      showPrincipal maxDepth s ⟨fromId,nested.1,nested.2.1,nested.2.2,sourceControllerId⟩
        (world.classify nested.1).1 nested.2.2 (depth + 1)) s

def controllerRelation : Option Provenance → Relation
  | some .callTarget => .externalCallTarget
  | some .callerGate => .controllerValue
  | none => .controllerValueUnattributed

def meetController (world : World) (maxDepth : Nat) (address : Address) (depth : Nat) (s : State)
    (controller : ControllerValue) : State :=
  let controllerAddress := lower controller.value
  if isAddress controllerAddress then
    let label := (controller.source.filter (· ≠ "")).getD controller.controllerId
    let s := showPrincipal maxDepth s
      ⟨address,controllerAddress,controllerRelation controller.authorityProvenance,label,
        some controller.controllerId⟩ controller.resolvedType label (depth + 1)
    addNestedPrincipals world maxDepth s controllerAddress
      (some controller.controllerId) controller.resolvedType controller.details (depth + 1)
  else s

def rolesLabel (roles : List Nat) : String :=
  if roles = [] then "role principal" else "roles " ++ String.intercalate "," (roles.map toString)

-- A principal of undetermined type is classified here.
def RolePrincipal.resolved (world : World) (principal : RolePrincipal) : ResolvedType × Details :=
  if principal.resolvedType = .unknown then
    ((world.classify (lower principal.address)).1,principal.details.update (world.classify (lower principal.address)).2)
  else (principal.resolvedType,principal.details)

def meetRolePrincipal (world : World) (maxDepth : Nat) (address : Address) (depth : Nat) (s : State)
    (principal : RolePrincipal) : State :=
  let principalAddress := lower principal.address
  if principalAddress = address then s
  else
    let resolved := principal.resolved world
    let s := showPrincipal maxDepth s ⟨address,principalAddress,.rolePrincipal,rolesLabel principal.roles,
      none⟩ resolved.1 "role principal" (depth + 1)
    addNestedPrincipals world maxDepth s principalAddress none resolved.1 resolved.2 (depth + 1)

def dropMappingMemberEdges (s : State) (contract : Address) : State :=
  let dropped := s.edges.filter fun edge => edge.fromId = contract && edge.relation = .mappingMember
  if dropped = [] then s
  else
    let edges := s.edges.filter fun edge => !(edge.fromId = contract && edge.relation = .mappingMember)
    let linked := edges.map (·.fromId) ++ edges.map (·.toId)
    let gone := fun entry : Address × Node =>
      entry.1 ∈ dropped.map (·.toId) && entry.1 ∉ linked && entry.2.nodeType = .principal && !entry.2.analyzed
    {s with edges:=edges,nodes:=s.nodes.filter fun entry => !gone entry}

def publishMember (address : Address) (depth : Nat) (s : State) (principal : EnumeratedPrincipal) : State :=
  let member := lower principal.address
  if member = lower address then s
  else {s with
    nodes:=ensureNode s.nodes member
      {nodeType:=.principal,resolvedType:=.unknown,label:=principal.mappingName,depth:=depth + 1}
    edges:=addEdge s.edges ⟨address,member,.mappingMember,principal.mappingName,
      some ("mapping:" ++ principal.mappingName)⟩}

def publishMappingPrincipals (s : State) (address : Address) (principals : List EnumeratedPrincipal)
    (complete : Bool) (depth : Nat) : State :=
  principals.foldl (publishMember address depth) (if complete then dropMappingMemberEdges s address else s)

def erase (entries : List (Address × Withheld)) (address : Address) : List (Address × Withheld) :=
  entries.filter (·.1 ≠ address)

def replayMappingPrincipals (s : State) (address : Address) (depth : Nat) (replay : Replay) : State :=
  let kept := replay.principals.filter replay.holdsCheckedKey
  let dropped := replay.principals.filter fun principal => !replay.holdsCheckedKey principal
  let withheld := if dropped = [] then erase s.withheld address else Dict.put address ⟨depth,dropped⟩ s.withheld
  publishMappingPrincipals {s with withheld:=withheld} address kept replay.complete depth

def setMappingEnumeration (nodes : Nodes) (address : Address) (status : Option Bool) : Nodes :=
  match nodes.lookup address with
  | none => nodes
  | some node => Dict.put address {node with mappingEnumeration:=status} nodes

-- The member part of a visit: a replay, or the clearing of a stored one.
def replayMembers (s : State) (address : Address) (depth : Nat) (trees : Option PredicateTrees) : State :=
  match trees with
  | none => s
  | some trees =>
    match trees.replay with
    | none => {s with nodes:=setMappingEnumeration s.nodes address none}
    | some replay =>
      let s := replayMappingPrincipals s address depth replay
      {s with nodes:=setMappingEnumeration s.nodes address (some replay.complete)}

section Walk

variable (world : World) (maxDepth : Nat)

def visit (s : State) (pending : PendingContract) : State :=
  let s : State := {s with processed:=s.processed ++ [pending.address]}
  match world.artifacts pending.address with
  | none =>
    let failed : Node := {nodeType:=.contract,resolvedType:=.contract,label:=pending.address,depth:=pending.depth}
    {s with nodes:=ensureNode s.nodes pending.address failed}
  | some artifacts =>
    let type := (world.classify pending.address).1
    let s : State := {s with
      nodes:=ensureNode s.nodes pending.address
        {nodeType:=.contract,resolvedType:=if type = .unknown then .contract else type,label:=artifacts.name,
         contractName:=some artifacts.name,
           depth:=pending.depth,analyzed:=true}
      authorityVars:=Dict.put pending.address (artifacts.predicateTrees.bind (·.authorityContractVars)) s.authorityVars}
    let s := replayMembers s pending.address pending.depth artifacts.predicateTrees
    let s := artifacts.controllerValues.foldl (meetController world maxDepth pending.address pending.depth) s
    artifacts.rolePrincipals.foldl (meetRolePrincipal world maxDepth pending.address pending.depth) s

def targetDepth (first : PendingContract) (rest : List PendingContract) : Nat :=
  rest.foldl (fun low entry => min low entry.depth) first.depth

-- One level: the entries of the least depth leave the queue together.
def level (s : State) : Option State :=
  match s.queue with
  | [] => none
  | first :: rest =>
    let target := targetDepth first rest
    let pending := s.queue.filter fun entry =>
      decide (entry.depth = target) && decide (entry.address ∉ s.processed) && decide (entry.depth ≤ maxDepth)
    some (pending.foldl (visit world maxDepth)
      {s with queue:=s.queue.filter fun entry => decide (entry.depth ≠ target)})

structure ResolvedControlGraph where
  nodes : Nodes
  edges : List Edge

def controllerName (edge : Edge) : String :=
  ((edge.sourceControllerId.getD "").toList.splitOn ':').getLastD [] |> String.ofList

-- Whether an edge shows a contract that gates by reading the other's state.
def readsAuthority (authorityVars : List (Address × Option (List String))) (edge : Edge) : Bool :=
  (edge.relation = .controllerValue || edge.relation = .controllerValueUnattributed) && edge.fromId ≠ edge.toId &&
      (edge.relation ≠ .controllerValue ||
          match (authorityVars.lookup edge.fromId).join with
          | none => true
          | some reads => controllerName edge ∈ reads)

def roleReadTargets (s : State) : List Address := (s.edges.filter (readsAuthority s.authorityVars)).map (·.toId)

def publishRoleReadMembers (s : State) : State :=
  let targets := roleReadTargets s
  ((s.withheld.mergeSort fun one other => decide (one.1 ≤ other.1)).filter (·.1 ∈ targets)).foldl
      (fun s held => publishMappingPrincipals s held.1 held.2.principals false held.2.depth) s

-- Analyzed nested contracts are processed; those whose replay did not settle are walked again.
def unsettled (root : Address) (initial : ResolvedControlGraph) : List PendingContract :=
  (initial.nodes.filter fun entry => entry.2.analyzed && entry.1 ≠ root && entry.2.mappingEnumeration = some false &&
      entry.2.depth ≤ maxDepth && (world.artifacts entry.1).any (·.predicateTrees.isSome)).map
        fun entry => ⟨entry.1,entry.2.depth⟩

def settled (root : Address) (initial : ResolvedControlGraph) : List Address :=
  (initial.nodes.filter fun entry => entry.2.analyzed && entry.1 ≠ root &&
    ⟨entry.1,entry.2.depth⟩ ∉ unsettled world maxDepth root initial).map (·.1)

def pendingOrder (one other : PendingContract) : Bool :=
  decide (one.depth < other.depth) || decide (one.depth = other.depth) && decide (one.address ≤ other.address)

def startState (root : Address) (initial : Option ResolvedControlGraph) : State :=
  match initial with
  | none => {queue:=[⟨root,0⟩],queued:=[root]}
  | some graph =>
    ((unsettled world maxDepth root graph).mergeSort pendingOrder).foldl
      (fun s entry => maybeQueueAddress maxDepth s entry.address entry.depth)
        {queue:=[⟨root,0⟩],queued:=[root],processed:=settled world maxDepth root graph,nodes:=graph.nodes,
         edges:=graph.edges}

def walked (root : Address) (initial : Option ResolvedControlGraph) (rounds : Nat) : State :=
  Loop.run (level world maxDepth) rounds (startState world maxDepth root initial)

def graphOf (s : State) : ResolvedControlGraph :=
  let s := publishRoleReadMembers s
  ⟨s.nodes,s.edges⟩

-- The graph after so many levels; the walk is over once the queue is empty.
def resolveControlGraph (root : Address) (initial : Option ResolvedControlGraph) (rounds : Nat) :
    Option ResolvedControlGraph :=
  let s := walked world maxDepth root initial rounds
  if s.queue = [] then some (graphOf s) else none

end Walk

end Psat.Control
