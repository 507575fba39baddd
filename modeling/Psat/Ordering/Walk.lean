import Psat.Ordering.Clearing

namespace Psat.Ordering
open Psat.General

-- `path` is the chain of call sites, the site last; `units` are the units they are in.
structure Site where
  path : List Position
  units : List UnitId
  shape : Option ClearingShape := none

structure WalkState where
  calls : List Site := []
  writes : List Site := []
  deepWrites : Nat := 0
  incomplete : Bool := false
  budget : Nat := 256

def controlTransferStarts : List String :=
  ["selfdestruct(","suicide(","call(","callcode(","delegatecall(","staticcall(","create(","create2("]

def isExternalCallIr : Ir → Bool
  | .externalCall .. => true
  | .libraryCall .. => true
  | .solidityCall name _ _ => controlTransferStarts.any fun start => start.toList.isPrefixOf name.toList
  | _ => false

-- The function an instruction calls inside the contract, and with what.
def Ir.called : Ir → Option (Option UnitId × List Value)
  | .internalCall function arguments _ => some (function,arguments)
  | .libraryCall function arguments _ => some (function,arguments)
  | _ => none

def calleeBindings (callee : Code) (arguments : List Value) (bindings : Bindings) : Bindings :=
  (callee.parameters.zip arguments).map fun (parameter,argument) => (parameter,keyStep bindings argument)

-- A unit on the walk: its call sites, their units, its parameters and the keys entered.
structure Visit where
  unit : UnitId
  path : List Position := []
  units : List UnitId
  bindings : Bindings
  onPath : List String

section
variable (program : UnitId → CodeUnit) (base : String) (steps : List PathStep)

def Visit.scope (visit : Visit) : Scope := ⟨(program visit.unit).toCode,visit.bindings⟩

def noteCall (visit : Visit) (position : Position) (ir : Ir) (state : WalkState) : WalkState :=
  if isExternalCallIr ir then {state with calls:=state.calls ++ [{path:=visit.path ++ [position],units:=visit.units}]}
    else state

def noteDynamic (ir : Ir) (state : WalkState) : WalkState :=
  match ir with
  | .internalDynamicCall _ => {state with incomplete:=true}
  | _ => state

def noteWrite (visit : Visit) (position : Position) (ir : Ir) (state : WalkState) : WalkState :=
  match (visit.scope program).clearingShape ir position base steps with
  | none => state
  | some shape =>
    let path := visit.path ++ [position]
    if path.length ≤ 2 then {state with writes:=state.writes ++ [{path:=path,units:=visit.units,shape:=some shape}]}
    else {state with deepWrites:=state.deepWrites + 1}

def Visit.callee (visit : Visit) (position : Position) (callee : UnitId) (arguments : List Value) : Visit where
  unit := callee
  path := visit.path ++ [position]
  units := visit.units ++ [callee]
  bindings := calleeBindings (program callee).toCode arguments visit.bindings
  onPath := (program callee).key :: visit.onPath

-- `descend` walks a callee, one level deeper; there is none at the depth cap.
def noteCallee (descend : Option (Visit → WalkState → WalkState)) (visit : Visit) (position : Position) (ir : Ir)
    (state : WalkState) : WalkState :=
  match ir.called with
  | none => state
  | some (none,_) => {state with incomplete:=true}
  | some (some callee,arguments) =>
    if (program callee).nodes.isEmpty then {state with incomplete:=true}
    else if (program callee).key ∈ visit.onPath then {state with incomplete:=true}
    else
      match descend with
      | none => {state with incomplete:=true}
      | some descend =>
        if state.budget = 0 then {state with incomplete:=true}
        else descend (visit.callee program position callee arguments) {state with budget:=state.budget - 1}

def walkIr (descend : Option (Visit → WalkState → WalkState)) (visit : Visit) (state : WalkState)
    (found : Position × Ir) :
    WalkState :=
  noteCallee program descend visit found.1 found.2
    (noteWrite program base steps visit found.1 found.2 (noteDynamic found.2 (noteCall visit found.1 found.2 state)))

def walk : Nat → Visit → WalkState → WalkState
  | 0,visit,state => (program visit.unit).positions.foldl (walkIr program base steps none visit) state
  | depth + 1,visit,state =>
    (program visit.unit).positions.foldl (walkIr program base steps (some (walk depth)) visit) state

end

namespace Code
variable (code : Code)

-- One round of the walk against the edges; only a node's first visit adds to it.
def backward (s : List Nat × List Nat) : Option (List Nat × List Nat) :=
  match s.2 with
  | [] => none
  | node :: waiting =>
    if node ∈ s.1 then some (s.1,waiting) else some (node :: s.1,(code.fathersOf node).reverse ++ waiting)

def reaching (header : Nat) : List Nat :=
  (Loop.run code.backward (1 + (code.nodes.flatMap Node.fathers).length) ([],[header])).1

def loopContext (node : Nat) : List Nat :=
  (List.range code.nodes.length).filter fun header =>
      decide (code.typeOf header = .ifLoop) && code.isDominatedBy node header && decide (node ∈ code.reaching header)

def placeholders : List Nat := (List.range code.nodes.length).filter fun n => code.typeOf n = .placeholder

def ends : List Nat := (List.range code.nodes.length).filter fun n => (code.sonsOf n).isEmpty

def exits : List Nat := if code.placeholders.isEmpty then code.ends else code.placeholders

def dominatesAllExits (node : Nat) : Bool :=
  !code.exits.isEmpty && code.exits.all fun exit => decide (exit = node) || code.isDominatedBy exit node

end Code

inductive Refusal
  | clearingWriteDoesNotDominateCalls
  | noClearingWrite
  | assemblyStateAccess
  | crossUnitOrderingUnproven
  | loopNestingMismatch
  | callEnumerationIncomplete
  | recordNotResolvable
deriving DecidableEq

def sharedLength : List Position → List Position → Nat
  | p :: path,q :: other => if p = q then sharedLength path other + 1 else 0
  | _,_ => 0

section
variable (program : UnitId → CodeUnit)

def ordered (code : Code) (write call : Position) : Bool :=
  if write.1 = call.1 then write.2 < call.2 else code.isDominatedBy call.1 write.1

-- Below the divergence the write must run whenever its unit is entered.
def nestedRuns : List (Position × UnitId) → Except Refusal Unit
  | [] => .ok ()
  | (position,unit) :: deeper =>
    if !(program unit).dominatesAllExits position.1 then .error .crossUnitOrderingUnproven
    else if !((program unit).loopContext position.1).isEmpty then .error .loopNestingMismatch
    else nestedRuns deeper

def precedes (write call : Site) : Except Refusal Bool :=
  let shared := sharedLength write.path call.path
  match (write.path.zip write.units).drop shared,call.path.drop shared with
  | (w,unit) :: nested,c :: _ =>
    if shared = 0 ∧ 1 < write.path.length ∧ 1 < call.path.length then .error .crossUnitOrderingUnproven
    else if (program unit).loopContext w.1 ≠ (program unit).loopContext c.1 then .error .loopNestingMismatch
    else if !ordered (program unit).toCode w c then .error .clearingWriteDoesNotDominateCalls
    else (nestedRuns program nested).map fun _ => !((program unit).loopContext w.1).isEmpty
  -- The write is inside the call or is the call.
  | _,_ => .error .clearingWriteDoesNotDominateCalls

def precedesAll (write : Site) : List Site → Except Refusal Bool
  | [] => .ok false
  | call :: calls =>
    match precedes program write call with
    | .error reason => .error reason
    | .ok inLoop => (precedesAll write calls).map (inLoop || ·)

end

-- The record, its clearing shape, and whether the order holds only within an iteration.
inductive Verdict
  | proven (record : String) (shape : Option ClearingShape) (crossIteration : Bool)
  | refused (reason : Refusal)
deriving DecidableEq

section
variable (program : UnitId → CodeUnit)

def refusalAmong (reasons : List Refusal) : Refusal :=
  ([.clearingWriteDoesNotDominateCalls,.loopNestingMismatch,.crossUnitOrderingUnproven].find? (· ∈ reasons)).getD
      .clearingWriteDoesNotDominateCalls

def firstProof (base : String) (calls : List Site) : List Site → List Refusal → Verdict
  | [],reasons => .refused (refusalAmong reasons)
  | write :: writes,reasons =>
    match precedesAll program write calls with
    | .ok disclosed => .proven base write.shape disclosed
    | .error reason => firstProof base calls writes (reason :: reasons)

def entryBindings (code : Code) : Bindings :=
  code.parameters.zipIdx.map fun (parameter,position) => (parameter,.param position)

def entryVisit (function : UnitId) : Visit where
  unit := function
  units := [function]
  bindings := entryBindings (program function).toCode
  onPath := [(program function).key]

def enumeration (function : UnitId) (base : String) (steps : List PathStep) : WalkState :=
  walk program base steps 6 (entryVisit program function) {}

def proveRecordOrdering (function : UnitId) (record : RecordRef) (assemblyStateAccess : Bool) : Verdict :=
  if assemblyStateAccess then .refused .assemblyStateAccess
  else if record.baseCanonical = "" then .refused .recordNotResolvable
  else
    match recordSteps record with
    | none => .refused .recordNotResolvable
    | some steps =>
      let state := enumeration program function record.baseCanonical steps
      if state.incomplete then .refused .callEnumerationIncomplete
      else if state.writes.isEmpty then
        .refused (if state.deepWrites = 0 then .noClearingWrite else .crossUnitOrderingUnproven)
      else firstProof program record.baseCanonical state.calls state.writes []

end

end Psat.Ordering
