import Mathlib.Data.Prod.Lex
import Mathlib.Data.String.Basic
import Psat.General.Sorted
import Psat.General.Walks
import Psat.Text

namespace Psat.Scoring.Reach
open Psat.General
open Psat.General.Walks

inductive ScopeKind
  | roles
  | stateVar
  | notDetermined
deriving DecidableEq

structure EdgeScope where
  kind : ScopeKind
  roles : List Nat := []
  stateVar : Option String := none
  label : Option String := none
deriving DecidableEq

-- `principal` has authority on `anchor`. Column witnesses have no relation.
structure ControlEdge where
  principal : String
  anchor : String
  relation : Option String := none
  scope : EdgeScope
  witness : String
deriving DecidableEq

structure ControlClosure where
  edges : List ControlEdge := []

def ControlClosure.edgesFrom (closure : ControlClosure) (principal : String) : List ControlEdge :=
  closure.edges.filter (·.principal = principal)

inductive ConferralOutcome
  | conferred
  | scopeNotDetermined
  | roleNotLicensed
  | variableNotRewritten
  | writesNotExtracted
deriving DecidableEq

structure LicensedFunction where
  selector : String
  name : String
deriving DecidableEq

structure ConferralVerdict where
  outcome : ConferralOutcome
  licensed : List LicensedFunction := []
  basis : String := ""

-- A walking gate, by what it confers of a scope at a destination.
structure GateGrant where
  capability : String
  confers : EdgeScope → String → ConferralVerdict

structure HopConditions where
  walked : Bool
  basis : String
  surface : String
  functionsConsulted : Nat
  disproving : List (List (String × String)) := []
deriving DecidableEq

-- The destinations' own guards, by caller and destination.
structure ConditionPlane where
  hop : String → String → HopConditions

inductive HopRefusal
  | scope
  | conferral
  | condition
deriving DecidableEq

structure HopBound where
  caller : String
  destination : String
  reason : HopRefusal
  conferral : Option ConferralOutcome := none
  capability : Option String := none
  relation : Option String
  witness : String
  edgeLabel : Option String
  basis : String
  surface : Option String := none
  functionsConsulted : Option Nat := none
  disprovingConditions : Option (List (List (String × String))) := none
deriving DecidableEq

def isZeroKey (key : String) : Bool := ("::" ++ Text.zeroAddress).toList.isSuffixOf key.toList

def conferralBound (edge : ControlEdge) (grant : GateGrant) : Option HopBound :=
  let verdict := grant.confers edge.scope edge.anchor
  if verdict.outcome = .conferred then none
  else
    some
      { caller:=edge.principal,destination:=edge.anchor
        reason:=if verdict.outcome = .scopeNotDetermined then .scope else .conferral
        conferral:=some verdict.outcome,capability:=some grant.capability,relation:=edge.relation,witness:=edge.witness
        edgeLabel:=edge.scope.label,basis:=verdict.basis }

def conditionBound (edge : ControlEdge) (conditions : ConditionPlane) : Option HopBound :=
  let hop := conditions.hop edge.principal edge.anchor
  if hop.walked then none
  else
    some
      { caller:=edge.principal,destination:=edge.anchor,reason:=.condition,relation:=edge.relation,witness:=edge.witness
        edgeLabel:=edge.scope.label,basis:=hop.basis,surface:=some hop.surface,
          functionsConsulted:=some hop.functionsConsulted
        disprovingConditions:=some hop.disproving }

-- Why a hop is not walked, or nothing when it is. No grant is code control.
def hopBound (edge : ControlEdge) (conditions : ConditionPlane) (grant : Option GateGrant) : Option HopBound :=
  (grant.bind (conferralBound edge)).or (conditionBound edge conditions)

abbrev Refusals := List ((String × String) × HopBound)

def refuse (edge : ControlEdge) (bound : HopBound) (refused : Refusals) : Refusals :=
  Dict.setDefault (edge.principal,edge.anchor) bound refused

-- Refusals in the order of their pairs, without those reached another way.
def gaps (refused : Refusals) (reached : List String) : List HopBound :=
  ((Sorted.sortBy (fun entry => (toLex entry.1 : String ×ₗ String)) refused).filter fun entry =>
    entry.1.2 ∉ reached).map Prod.snd

def seedKeys (seeds : List String) : List String := (Sorted.sortedSet seeds).filter fun key => !isZeroKey key

structure Bfs extends Breadth String where
  parent : List (String × String) := []
  refused : Refusals := []

structure ClosureWalk extends Depth String where
  withheld : Refusals := []
  licensed : List (String × List LicensedFunction) := []
  walked : List ((String × String) × List LicensedFunction) := []

section Walks
variable (closure : ControlClosure) (conditions : ConditionPlane) (grant : Option GateGrant)

def bfsEdge (key : String) (hop : Nat) (walk : Bfs) (edge : ControlEdge) : Bfs :=
  if isZeroKey edge.anchor then walk
  else
    match hopBound edge conditions grant with
    | none =>
      if edge.anchor ∈ walk.known then walk
      else
        { walk with
          dist:=walk.dist ++ [(edge.anchor,hop)],queue:=walk.queue ++ [edge.anchor]
          parent:=Dict.put edge.anchor key walk.parent }
    | some bound => {walk with refused:=refuse edge bound walk.refused}

def bfsRound (walk : Bfs) : Option Bfs :=
  match walk.queue with
  | [] => none
  | key :: rest =>
    some ((closure.edgesFrom key).foldl (bfsEdge conditions grant key (walk.hopOf key + 1)) {walk with queue:=rest})

-- Each pop is of a seed or of an edge's anchor, once.
def bfsWalk (seeds : List String) : Bfs :=
  Loop.run (bfsRound closure conditions grant) ((seedKeys seeds).length + closure.edges.length)
    {dist:=(seedKeys seeds).map fun key => (key,1),queue:=seedKeys seeds}

def bfs (seeds : List String) : List (String × Nat) × List (String × String) × List HopBound :=
  let walk := bfsWalk closure conditions grant seeds
  (walk.dist,walk.parent,gaps walk.refused walk.known)

def license (grant : Option GateGrant) (edge : ControlEdge) : List LicensedFunction :=
  grant.elim [] fun grant => (grant.confers edge.scope edge.anchor).licensed

def closureEdge (walk : ClosureWalk) (edge : ControlEdge) : ClosureWalk :=
  if isZeroKey edge.anchor then walk
  else
    match hopBound edge conditions grant with
    | none =>
      let here := license grant edge
      { walk with
        licensed:=if grant.isSome then
          Dict.put edge.anchor (Ordered.insertKeys ((List.lookup edge.anchor walk.licensed).getD []) here) walk.licensed
          else walk.licensed
        walked:=Dict.put (edge.principal,edge.anchor)
          (Ordered.insertKeys ((List.lookup (edge.principal,edge.anchor) walk.walked).getD []) here) walk.walked
        stack:=Depth.push walk.seen walk.stack edge.anchor }
    | some bound => {walk with withheld:=refuse edge bound walk.withheld}

def closureRound (walk : ClosureWalk) : Option ClosureWalk :=
  match walk.stack with
  | [] => none
  | key :: rest =>
    if key ∈ walk.seen then some {walk with stack:=rest}
    else some ((closure.edgesFrom key).foldl (closureEdge conditions grant)
      {walk with seen:=key :: walk.seen,stack:=rest})

def closureWalk (seeds : List String) : ClosureWalk :=
  Loop.run (closureRound closure conditions grant) ((seedKeys seeds).length + closure.edges.length)
    {seen:=[],stack:=(seedKeys seeds).reverse}

structure WalkedHop where
  caller : String
  destination : String
  licensed : List LicensedFunction

-- The reach, the gaps, what is licensed at each destination, and the hops walked.
def foldClosure (seeds : List String) :
    List String × List HopBound × List (String × List LicensedFunction) × List WalkedHop :=
  let walk := closureWalk closure conditions grant seeds
  (walk.seen,gaps walk.withheld walk.seen,
      (Sorted.sortBy Prod.fst walk.licensed).filter fun entry => !entry.2.isEmpty,
      (Sorted.sortBy (fun entry => (toLex entry.1 : String ×ₗ String)) walk.walked).map fun entry =>
        ⟨entry.1.1,entry.1.2,entry.2⟩)

end Walks

end Psat.Scoring.Reach
