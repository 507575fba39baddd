import Mathlib.Data.List.Forall2
import Psat.Ordering.Enumeration

namespace Psat.Ordering

-- A storage cell: the state variable and the keys and members down to it.
inductive CellStep
  | key (value : Nat)
  | member (name : String)
deriving DecidableEq

structure Cell where
  base : String
  steps : List CellStep
deriving DecidableEq

inductive Referent
  | storage (cell : Cell)
  | memory

namespace Referent

def extend (referent : Referent) (step : CellStep) : Referent :=
  match referent with
  | .storage cell => .storage {cell with steps:=cell.steps ++ [step]}
  | .memory => .memory

def cell : Referent → Option Cell
  | .storage cell => some cell
  | .memory => none

end Referent

-- The variables of one activation; a reference not yet taken is `none`.
structure Env where
  references : Nat → Option Referent
  locals : Nat → Nat
  temporaries : Nat → Nat

namespace Env

def referent (env : Env) : Value → Option Referent
  | .state canonical => some (.storage ⟨canonical,[]⟩)
  | .reference id => env.references id
  | _ => some .memory

def assign (env : Env) (target : Option Value) (result : Nat) : Env :=
  match target with
  | some (.localVar id) => {env with locals:=Function.update env.locals id result}
  | some (.temporary id) => {env with temporaries:=Function.update env.temporaries id result}
  | _ => env

-- The stored values are left open, and so is what is read through a reference.
def Evaluates (sender : Nat) (env : Env) (value : Value) (result : Nat) : Prop :=
  match value with
  | .localVar id => result = env.locals id
  | .temporary id => result = env.temporaries id
  | .constant (.number (some n)) => (result : Int) = n
  | .solidity name => name = "msg.sender" → result = sender
  | _ => True

end Env

-- Arithmetic and the results of calls are left open.
def Ir.Yields (sender : Nat) (env : Env) (ir : Ir) (result : Nat) : Prop :=
  match ir with
  | .assignment _ rvalue => env.Evaluates sender rvalue result
  | .delete .. => result = 0
  | _ => True

-- One instruction that calls no unit. An internal function pointer has no rule.
inductive Executes (sender : Nat) (env : Env) : Ir → Env → Option Cell → Prop
  | index {id key : Nat} {left right : Value} {referent : Referent} : env.referent left = some referent →
    env.Evaluates sender right key → Executes sender env (.index (.reference id) left right)
      {env with references:=Function.update env.references id (some (referent.extend (.key key)))} none
  | member {id : Nat} {left : Value} {name : String} {referent : Referent} : env.referent left = some referent →
    Executes sender env (.member (.reference id) left name)
      {env with references:=Function.update env.references id (some (referent.extend (.member name)))} none
  | write {ir : Ir} {target : Value} {referent : Referent} {result : Nat} : ir.isPlain → ir.target = some target →
    env.referent target = some referent → ir.Yields sender env result →
    Executes sender env ir (env.assign (some target) result) referent.cell
  | skip {ir : Ir} : ir.isPlain → ir.target = none → Executes sender env ir env none

def memoryWriteStarts : List String :=
  ["mstore(","mstore8(","mcopy(","calldatacopy(","codecopy(","extcodecopy(","returndatacopy(",
    "call(","callcode(","delegatecall(","staticcall("]

-- `bytes(name)[0] = x`, or assembly that may write any place of memory.
def Ir.TouchesMemory (env : Env) : Ir → Prop
  | .solidityCall name _ _ => memoryWriteStarts.any fun start => start.toList.isPrefixOf name.toList
  | ir => ir.isPlain ∧ ∃ id, ir.target = some (.reference id) ∧ ∃ referent, env.references id = some referent ∧
      referent.cell = none

-- One run of a unit: which visit of the enumeration it is, and how far it is.
structure Activation where
  visit : Visit
  node : Nat := 0
  index : Nat := 0
  env : Env

namespace Activation

def position (a : Activation) : Position := (a.node,a.index)

def path (a : Activation) : List Position := a.visit.path ++ [a.position]

def next (a : Activation) (env : Env) : Activation := {a with index:=a.index + 1,env:=env}

def jump (a : Activation) (node : Nat) : Activation := {a with node:=node,index:=0}

end Activation

-- A unit running, or a modifier around it: `ran` once its placeholder ran the
-- unit, `holding` while it does.
inductive Frame
  | plain (active : Activation)
  | around (active host : Activation) (ran holding : Bool)

namespace Frame

def active : Frame → Activation
  | .plain active => active
  | .around active _ _ _ => active

def setActive (frame : Frame) (active : Activation) : Frame :=
  match frame with
  | .plain _ => .plain active
  | .around _ host ran holding => .around active host ran holding

-- The unit that is over when the frame is.
def whole : Frame → Activation
  | .plain active => active
  | .around _ host _ _ => host

end Frame

structure Executed where
  visit : Visit
  position : Position
  ir : Ir
  cell : Option Cell

-- Innermost frame first, latest instruction first.
structure Machine where
  stack : List Frame
  trace : List Executed

section
variable (program : UnitId → CodeUnit)

def Activation.ir (a : Activation) : Option Ir := (program a.visit.unit).irAt a.position

-- The node's instructions have run, and its placeholder if it is one.
def Activation.Done (a : Activation) : Prop :=
  (program a.visit.unit).lengthAt a.node ≤ a.index ∧
      ((program a.visit.unit).typeOf a.node = .placeholder → (program a.visit.unit).lengthAt a.node < a.index)

def Activation.AtEnd (a : Activation) : Prop := a.Done program ∧ a.node ∈ (program a.visit.unit).ends

-- Control comes back to a frame from the unit it waited for.
def Frame.resume (frame : Frame) (finished : Env) (result : Nat) : Frame :=
  match frame with
  | .around active host _ true => .around (active.next active.env) {host with env:=finished} true false
  | frame =>
    frame.setActive (frame.active.next (frame.active.env.assign ((frame.active.ir program).bind Ir.target) result))

def Enters (sender : Nat) (caller : Env) (callee : Code) (arguments : List Value) (env : Env) : Prop :=
  (∀ pair ∈ callee.parameters.zip arguments, caller.Evaluates sender pair.2 (env.locals pair.1)) ∧
      ∀ id, env.references id = none

-- Nothing but what the memory holds has changed.
def Activation.Disturbed (a b : Activation) : Prop :=
  ∃ env : Env, b = {a with env:=env} ∧ env.references = a.env.references ∧
    ∀ id, id ∉ (program a.visit.unit).memoryLocals → env.locals id = a.env.locals id

inductive Frame.Disturbed : Frame → Frame → Prop
  | plain {a b : Activation} : a.Disturbed program b → Frame.Disturbed (.plain a) (.plain b)
  | around {a b host host' : Activation} {ran holding : Bool} : a.Disturbed program b → host.Disturbed program host' →
    Frame.Disturbed (.around a host ran holding) (.around b host' ran holding)

-- A called modifier runs around the rest of the unit. An instruction that writes into memory changes what it does
-- there as it is about to run: any variable that memory holds may be concerned.
inductive Step (sender : Nat) : Machine → Machine → Prop
  | execute {frame : Frame} {rest : List Frame} {trace : List Executed} {ir : Ir} {env : Env} {cell : Option Cell} :
    frame.active.ir program = some ir → Executes sender frame.active.env ir env cell →
    Step sender ⟨frame :: rest,trace⟩ ⟨frame.setActive (frame.active.next env) :: rest,
      ⟨frame.active.visit,frame.active.position,ir,cell⟩ :: trace⟩
  | touch {frame : Frame} {rest stack : List Frame} {trace : List Executed} {ir : Ir} :
    frame.active.ir program = some ir → ir.TouchesMemory frame.active.env →
    List.Forall₂ (Frame.Disturbed program) (frame :: rest) stack → Step sender ⟨frame :: rest,trace⟩ ⟨stack,trace⟩
  | call {frame : Frame} {rest : List Frame} {trace : List Executed} {ir : Ir} {callee : UnitId}
    {arguments : List Value}
    {env : Env} : frame.active.ir program = some ir → ir.called = some (some callee,arguments) →
    (program callee).isModifier = false → Enters sender frame.active.env (program callee).toCode arguments env →
    Step sender ⟨frame :: rest,trace⟩
      ⟨.plain {visit:=frame.active.visit.callee program frame.active.position callee arguments,env:=env} ::
        frame :: rest,
          ⟨frame.active.visit,frame.active.position,ir,none⟩ :: trace⟩
  | modifier {host : Activation} {rest : List Frame} {trace : List Executed} {ir : Ir} {callee : UnitId}
    {arguments : List Value} {env : Env} : host.ir program = some ir → ir.called = some (some callee,arguments) →
    (program callee).isModifier = true → Enters sender host.env (program callee).toCode arguments env →
    Step sender ⟨.plain host :: rest,trace⟩
      ⟨.around {visit:=host.visit.callee program host.position callee arguments,env:=env} host false false :: rest,
          ⟨host.visit,host.position,ir,none⟩ :: trace⟩
  | jump {frame : Frame} {rest : List Frame} {trace : List Executed} {son : Nat} : frame.active.Done program →
    son ∈ (program frame.active.visit.unit).sonsOf frame.active.node →
    Step sender ⟨frame :: rest,trace⟩ ⟨frame.setActive (frame.active.jump son) :: rest,trace⟩
  | placeholder {active host : Activation} {ran : Bool} {rest : List Frame} {trace : List Executed} :
    (program active.visit.unit).typeOf active.node = .placeholder →
    active.index = (program active.visit.unit).lengthAt active.node →
    Step sender ⟨.around active host ran false :: rest,trace⟩
      ⟨.plain (host.next host.env) :: .around active host ran true :: rest,trace⟩
  | leave {frame next : Frame} {rest : List Frame} {trace : List Executed} {result : Nat} : frame.active.AtEnd program →
    Step sender ⟨frame :: next :: rest,trace⟩ ⟨next.resume program frame.whole.env result :: rest,trace⟩
  | finish {frame : Frame} {trace : List Executed} : frame.active.AtEnd program → Step sender ⟨[frame],trace⟩ ⟨[],trace⟩

end

-- The call the run is of: the values of the parameters and the sender.
structure Inputs where
  calldata : Nat → Nat
  sender : Nat

section
variable (program : UnitId → CodeUnit)

def Starts (function : UnitId) (inputs : Inputs) (s : Machine) : Prop :=
  ∃ env : Env, s = ⟨[.plain {visit:=entryVisit program function,env:=env}],[]⟩ ∧ (∀ id, env.references id = none) ∧
    ∀ pair ∈ (program function).parameters.zipIdx, env.locals pair.1 = inputs.calldata pair.2

def Machine.AtExternalCall (s : Machine) : Prop :=
  ∃ frame rest ir, s.stack = frame :: rest ∧ frame.active.ir program = some ir ∧ isExternalCallIr ir

-- The next instruction assigns no parameter of its unit.
def Machine.KeepsParameters (s : Machine) : Prop :=
  ∀ frame rest ir, s.stack = frame :: rest → frame.active.ir program = some ir →
    ∀ id ∈ (program frame.active.visit.unit).parameters, ir.target ≠ some (.localVar id)

-- A modifier of a called unit that is at its end has run the unit.
def Machine.RunsBodies (s : Machine) : Prop :=
  ∀ active host ran holding rest, s.stack = .around active host ran holding :: rest → active.AtEnd program →
    host.visit.path ≠ [] → ran = true

def Activation.ByValue (a : Activation) : Prop :=
  ∀ id ∈ (program a.visit.unit).parameters, id ∉ (program a.visit.unit).memoryLocals

-- The next instruction writes into memory only where no unit that is running has a parameter there.
def Machine.KeepsMemory (s : Machine) : Prop :=
  ∀ frame rest ir, s.stack = frame :: rest → frame.active.ir program = some ir → ir.TouchesMemory frame.active.env →
    ∀ other ∈ s.stack, other.active.ByValue program ∧ other.whole.ByValue program

def CarefulStep (sender : Nat) (s t : Machine) : Prop :=
  Step program sender s t ∧ s.KeepsParameters program ∧ s.KeepsMemory program ∧ s.RunsBodies program

end

end Psat.Ordering
