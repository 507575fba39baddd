import Mathlib.Data.List.Nodup

namespace Psat.Flows
open List

abbrev UnitId := Nat

abbrev Operand := String

-- The origins and the entry positions forwarded to the parameters of a callee.
abbrev Bindings := List (String × List String) × List (String × Nat)

-- The selector and the bare name of a call.
abbrev Identity := Option String × Option String

def Identity.told (identity : Identity) : Bool := identity.1.any (· ≠ "") || identity.2.any (· ≠ "")

inductive TokenFirst
  | send (sink amount : Operand)
  | pull (source sink amount : Operand)

-- The instructions the walk looks at; a callee is there only if it has a body.
inductive Ir
  | transferSend (destination amount : Option Operand)
  | lowLevelCall (value : Bool) (destination amount : Option Operand)
  | highLevelCall (selector name : Option String) (arguments : List Operand) (tokenFirst : Option TokenFirst)
    (callee : Option (UnitId × String))
  | libraryCall (name : Option String) (modifier : Bool) (tokenFirst : Option TokenFirst) (callee : Option UnitId)
  | internalCall (modifier : Bool) (callee : Option UnitId)

inductive Kind
  | nativeTransferSend
  | calleeErc20Selector
  | lowLevelValueCall
deriving DecidableEq

inductive Direction
  | out
  | in_
  | valueRouter
deriving DecidableEq

inductive Origin
  | body
  | guard
deriving DecidableEq

def pullSelectors : List String := ["0x23b872dd","0x42842e0e","0xb88d4fde"]

def sendSelectors : List String := ["0xa9059cbb","0x423f6cef"]

def identitySelectors : List String := ["0x42842e0e","0xb88d4fde"]

structure Move where
  kind : Kind
  selector : Option String := none
  fromIsSelf : Bool := true
  target : Option Operand
  amount : Option Operand
  amountOverride : Bool := false
  identityPossible : Bool := false
  opIdentity : Option Identity := none
  libraryCallee : Option String := none

def Move.native (move : Move) : Direction := if move.fromIsSelf then .out else .in_

structure Visit where
  unit : UnitId
  origin : Origin := .body
  bindings : Option Bindings := none
  crossed : Bool := false
  classContract : String
  routerOp : Option Identity := none

def Visit.key (visit : Visit) : UnitId × Option Bindings × Bool := (visit.unit,visit.bindings,visit.crossed)

structure FlowKey where
  kind : Kind
  selector : Option String
  direction : Direction
  fromIsSelf : Bool
  origin : Origin
  libraryCallees : Option String
deriving DecidableEq

-- The code and what the provenance engine answers in the context of a visit.
structure Code where
  body : UnitId → List Ir
  isThis : UnitId → Operand → Bool
  bindingsFor : Visit → Ir → Bindings
  provablyZero : Visit → Option Operand → Bool
  sinkIsSelf : Visit → Option Operand → Bool

structure State where
  visited : List (UnitId × Option Bindings × Bool) := []
  flows : List FlowKey := []
  routerFlows : List FlowKey := []
  routerOps : List (FlowKey × Identity) := []

structure Flow extends FlowKey where
  routerOps : List Identity
deriving DecidableEq

section Walk
variable (code : Code)

def tokenFirstMoves (unit : UnitId) (selectors : TokenFirst → Option String) (name libraryCallee : Option String) :
    Option TokenFirst → List Move
  | none => []
  | some (.send sink amount) =>
    [{kind:=.calleeErc20Selector,selector:=selectors (.send sink amount),target:=some sink,
      amount:=some amount,libraryCallee}]
  | some (.pull source sink amount) =>
    [{kind:=.calleeErc20Selector,selector:=selectors (.pull source sink amount),fromIsSelf:=code.isThis unit source,
      target:=some sink
      amount:=some amount,opIdentity:=some (selectors (.pull source sink amount),name),libraryCallee}]

def selectorMoves (unit : UnitId) (selector name : Option String) (arguments : List Operand) : List Move :=
  if selector.any (· ∈ pullSelectors) then
    [{kind:=.calleeErc20Selector,selector,fromIsSelf:=arguments.head?.any (code.isThis unit),
      target:=arguments[1]?,amount:=arguments[2]?
      amountOverride:=selector.any (· ∈ identitySelectors),identityPossible:=selector = some "0x23b872dd",
        opIdentity:=some (selector,name)}]
  else if selector.any (· ∈ sendSelectors) then
    [{kind:=.calleeErc20Selector,selector,target:=arguments.head?,amount:=arguments[1]?}]
  else []

def movesOf (unit : UnitId) : Ir → List Move
  | .transferSend destination amount => [{kind:=.nativeTransferSend,target:=destination,amount}]
  | .lowLevelCall value destination amount =>
    if value then [{kind:=.lowLevelValueCall,target:=destination,amount}] else []
  | .highLevelCall selector name arguments tokenFirst _ =>
    selectorMoves code unit selector name arguments ++ tokenFirstMoves code unit
      (fun _ => selector) name none tokenFirst
  | .libraryCall name _ tokenFirst _ => tokenFirstMoves code unit
    (fun | .send _ _ => some "0xa9059cbb" | .pull _ _ _ => some "0x23b872dd") name (name.filter (· ≠ "")) tokenFirst
  | .internalCall _ _ => []

def Move.dropped (visit : Visit) (move : Move) : Bool :=
  code.provablyZero visit move.amount && !move.amountOverride && !move.identityPossible

-- A pull is the contract's own only where the sink is the contract.
def Move.flowKey (visit : Visit) (move : Move) : FlowKey where
  kind := move.kind
  selector := move.selector
  direction := if visit.crossed || (!move.fromIsSelf && !code.sinkIsSelf visit move.target) then .valueRouter
    else move.native
  fromIsSelf := move.fromIsSelf
  origin := visit.origin
  libraryCallees := move.libraryCallee

def add (visit : Visit) (s : State) (move : Move) : State :=
  if move.dropped code visit then s
  else
    let key := move.flowKey code visit
    let identity := (if visit.crossed then visit.routerOp else move.opIdentity).filter Identity.told
    let noted :=
      {s with routerOps:=s.routerOps ++ if key.direction = .valueRouter then identity.toList.map (key,·) else []}
    if key ∈ s.flows ++ s.routerFlows then noted
    else if visit.crossed then {noted with routerFlows:=s.routerFlows ++ [key]}
    else {noted with flows:=s.flows ++ [key]}

def isDirectValue (selector : Option String) (tokenFirst : Option TokenFirst) : Bool :=
  selector.any (· ∈ pullSelectors) || selector.any (· ∈ sendSelectors) || tokenFirst.isSome

def stay (visit : Visit) (ir : Ir) (modifier : Bool) (callee : UnitId) : Visit :=
  {visit with unit:=callee,origin:=if modifier then .guard else visit.origin,bindings:=some (code.bindingsFor visit ir)}

def descend (visit : Visit) (ir : Ir) : Option Visit :=
  match ir with
  | .libraryCall _ modifier _ callee => callee.map (stay code visit ir modifier)
  | .internalCall modifier callee => callee.map (stay code visit ir modifier)
  | .highLevelCall selector name _ tokenFirst callee =>
    if isDirectValue selector tokenFirst then none
    else callee.map fun callee =>
      {visit with
         unit:=callee.1
         bindings:=some (code.bindingsFor visit ir)
         crossed:=true
         classContract:=callee.2
         routerOp:=if visit.crossed then visit.routerOp else some (selector,name)}
  | _ => none

def depthCap : Nat := 128

def look (into : Visit → State → State) (visit : Visit) (s : State) (ir : Ir) : State :=
  let added := (movesOf code visit.unit ir).foldl (add code visit) s
  (descend code visit ir).elim added fun child => into child added

-- `left` is one more than the calls the depth cap still allows.
def walk : Nat → Visit → State → State
  | 0, _, s => s
  | left + 1, visit, s =>
    if visit.key ∈ s.visited then s
    else (code.body visit.unit).foldl (look code (walk left) visit) {s with visited:=visit.key :: s.visited}

def entry (function : UnitId) (contract : String) : Visit := {unit:=function,classContract:=contract}

end Walk

section Tour
variable (code : Code)

-- A visit with one more than the calls that are left to it.
structure Stop where
  visit : Visit
  left : Nat

-- What the walk does before anything is recorded: the visits it makes, and the moves it comes to in order.
structure Tour where
  stops : List Stop := []
  moves : List (Visit × Move) := []

def Tour.state (t : Tour) : State :=
  {t.moves.foldl (fun s met => add code met.1 s met.2) {} with visited:=t.stops.map (·.visit.key)}

end Tour

-- The visit that a path of calls leads to.
inductive Reaches (code : Code) (start : Visit) : List Ir → Visit → Prop
  | here : Reaches code start [] start
  | call {calls visit ir child} : Reaches code start calls visit → ir ∈ code.body visit.unit →
    descend code visit ir = some child → Reaches code start (calls ++ [ir]) child

theorem Reaches.trans (first : Reaches code start calls middle) (second : Reaches code middle more visit) :
    Reaches code start (calls ++ more) visit := by
  induction second with
  | here => simpa using first
  | call _ inside led ih =>
    rw [← append_assoc]
    exact ih.call inside led

theorem Reaches.once (inside : ir ∈ code.body visit.unit) (led : descend code visit ir = some child) :
    Reaches code visit [ir] child := .call .here inside led

theorem Reaches.none (reaches : Reaches code start [] visit) : visit = start := by
  generalize shape : [] = path at reaches
  cases reaches with
  | here => rfl
  | call => simp at shape

theorem Reaches.first (reaches : Reaches code start (ir :: calls) visit) :
    ∃ child, ir ∈ code.body start.unit ∧ descend code start ir = some child ∧ Reaches code child calls visit := by
  generalize shape : ir :: calls = path at reaches
  induction reaches generalizing calls with
  | here => cases shape
  | @call before middle last child reaches inside led ih =>
    cases before with
    | nil =>
      obtain rfl := reaches.none
      obtain ⟨rfl,rfl⟩ := cons.inj shape
      exact ⟨child,inside,led,.here⟩
    | cons head tail =>
      obtain ⟨rfl,rfl⟩ := cons.inj shape
      obtain ⟨next,inside',led',rest⟩ := ih rfl
      exact ⟨next,inside',led',rest.call inside led⟩

def Ir.modifierCall : Ir → Bool
  | .libraryCall _ modifier _ _ => modifier
  | .internalCall modifier _ => modifier
  | _ => false

def Ir.crossing : Ir → Option Identity
  | .highLevelCall selector name _ _ _ => some (selector,name)
  | _ => none

def originOf (calls : List Ir) : Origin := if calls.any Ir.modifierCall then .guard else .body

def firstCrossing (calls : List Ir) : Option Identity := calls.findSome? Ir.crossing

-- What a part of the walk adds: stops that paths lead to, each with all its moves.
structure Adds (code : Code) (start : Visit) (before later : Tour) : Prop where
  stops : before.stops ⊆ later.stops
  moves : before.moves ⊆ later.moves
  reached : ∀ stop ∈ later.stops, stop ∉ before.stops → ∃ calls, Reaches code start calls stop.visit ∧
    calls.length + stop.left = depthCap + 1
  whole : ∀ stop ∈ later.stops, stop ∉ before.stops → ∀ ir ∈ code.body stop.visit.unit,
    ∀ move ∈ movesOf code stop.visit.unit ir, (stop.visit,move) ∈ later.moves

theorem Adds.refl (t : Tour) : Adds code start t t where
  stops _ := id
  moves _ := id
  reached _ here new := absurd here new
  whole _ here new := absurd here new

theorem Adds.trans (first : Adds code start before middle) (second : Adds code start middle later) :
    Adds code start before later where
  stops _ here := second.stops (first.stops here)
  moves _ here := second.moves (first.moves here)
  reached stop here new := by
    by_cases earlier : stop ∈ middle.stops
    · exact first.reached stop earlier new
    · exact second.reached stop here earlier
  whole stop here new ir inside move moves := by
    by_cases earlier : stop ∈ middle.stops
    · exact second.moves (first.whole stop earlier new ir inside move moves)
    · exact second.whole stop here earlier ir inside move moves

-- A flow of the move, as the path of calls to it tells.
def Published (flows : List Flow) (calls : List Ir) (move : Move) : Prop :=
  ∃ flow ∈ flows, flow.kind = move.kind ∧ flow.selector = move.selector ∧ flow.origin = originOf calls ∧
    ∀ crossing, firstCrossing calls = some crossing → flow.direction = .valueRouter ∧ crossing ∈ flow.routerOps

def plain (body : UnitId → List Ir) : Code where
  body := body
  isThis _ _ := false
  bindingsFor _ _ := ([],[])
  provablyZero _ _ := false
  sinkIsSelf _ _ := false

def enter : Ir := .highLevelCall (some "0x39d6ba32") (some "enter") [] none (some (1,"Vault"))

def exit : Ir := .highLevelCall (some "0x18457e61") (some "exit") [] none (some (2,"Vault"))

end Psat.Flows
