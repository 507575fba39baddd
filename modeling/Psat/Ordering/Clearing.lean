import Psat.Ordering.Units

namespace Psat.Ordering

-- A key of an index level, in terms of the entry function.
inductive KeyKind
  | param (index : Nat)
  | msgSender
  | indeterminate
deriving DecidableEq

inductive PathStep
  | index (key : KeyKind)
  | member (name : String)
deriving DecidableEq

def PathStep.isMember : PathStep → Bool
  | .index _ => false
  | .member _ => true

-- The base's canonical name and the steps from it outward.
abbrev AccessPath := String × List PathStep

-- What the parameters of a unit stand for, by the id of the parameter.
abbrev Bindings := List (Nat × KeyKind)

def keyStep (bindings : Bindings) : Value → KeyKind
  | .localVar id => (bindings.lookup id).getD .indeterminate
  | .solidity name => if name = "msg.sender" then .msgSender else .indeterminate
  | _ => .indeterminate

structure Scope where
  code : Code
  bindings : Bindings

namespace Scope
variable (scope : Scope)

-- The first `Index` or `Member` that takes the reference.
def refDef (id : Nat) : Option Ir :=
  scope.code.irs.find? fun ir => ir.isAccess && decide (ir.lvalue = some (.reference id))

def valueDef : Value → Option Ir
  | .temporary id => scope.code.irs.find? fun ir => ir.isValueDef && decide (ir.lvalue = some (.temporary id))
  | _ => none

def localDefs (id : Nat) : List Ir := scope.code.irs.filter fun ir => ir.lvalue = some (.localVar id)

def resolveAccessPath : Nat → Value → Option AccessPath
  | 0,_ => none
  | fuel + 1,value =>
    match value with
    | .state canonical => if canonical = "" then none else some (canonical,[])
    | .reference id =>
      match scope.refDef id with
      | some (.index _ left right) =>
        (resolveAccessPath fuel left).map fun path => (path.1,path.2 ++ [.index (keyStep scope.bindings right)])
      | some (.member _ left name) => (resolveAccessPath fuel left).map fun path => (path.1,path.2 ++ [.member name])
      | _ => none
    | _ => none

def pathOf (value : Value) : Option AccessPath := scope.resolveAccessPath 16 value

end Scope

-- The vocabulary of the record's key levels.
inductive RecordKey
  | param
  | msgSender
  | other
deriving DecidableEq

structure RecordRef where
  baseCanonical : String
  memberPath : Option (List String) := none
  keyKinds : Option (List RecordKey) := none
  keyParamIndexes : Option (List (Option Nat)) := none

def recordKeys : List RecordKey → List (Option Nat) → Option (List PathStep)
  | [],[] => some []
  | .param :: kinds,some index :: indexes => (recordKeys kinds indexes).map (.index (.param index) :: ·)
  | .msgSender :: kinds,_ :: indexes => (recordKeys kinds indexes).map (.index .msgSender :: ·)
  | _,_ => none

def recordSteps (record : RecordRef) : Option (List PathStep) :=
  match record.keyKinds,record.keyParamIndexes,record.memberPath with
  | some kinds,some indexes,some members => (recordKeys kinds indexes).map (· ++ members.map .member)
  | _,_,_ => none

def elementSteps (steps : List PathStep) : List PathStep := (steps.reverse.dropWhile PathStep.isMember).reverse

def isZeroConstant : Value → Bool
  | .constant (.number value) => value = some 0
  | _ => false

def isFalseConstant (value : Value) : Bool := value = .constant (.bool false)

def isTrueConstant (value : Value) : Bool := value = .constant (.bool true)

def minuendOf : Ir → Option Value
  | .binary .subtraction _ left _ => some left
  | _ => none

namespace Scope
variable (scope : Scope)

def readsRecordValue (value : Value) (target : AccessPath) : Bool :=
  if scope.pathOf value = some target then true
  else
    let source := match value with
      | .temporary id => scope.valueDef (.temporary id)
      | .localVar id =>
        match scope.localDefs id with
        | [only] => some only
        | _ => none
      | _ => none
    match source with
    | some (.assignment _ rvalue) => scope.pathOf rvalue = some target
    | _ => false

def conditionPinsRecord (target : AccessPath) : Nat → Value → Bool
  | 0,_ => false
  | fuel + 1,value =>
    if scope.pathOf value = some target then true
    else
      match scope.valueDef value with
      | some (.assignment _ rvalue) => conditionPinsRecord target fuel rvalue
      | some (.binary .andAnd _ left right) =>
        conditionPinsRecord target fuel left || conditionPinsRecord target fuel right
      | some (.binary .equal _ left right) =>
        decide (scope.pathOf left = some target) && isTrueConstant right ||
          decide (scope.pathOf right = some target) && isTrueConstant left
      | _ => false

def mandatoryArgument : Ir → Option Value
  | .solidityCall name arguments _ =>
    if name ∈ ["require(bool)","require(bool,string)","require(bool,error)","assert(bool)"] then arguments.head?
      else none
  | _ => none

def hasMandatoryMemberPredicate (write : Position) (target : AccessPath) : Bool :=
  scope.code.positions.any fun (position,ir) =>
    (decide (position.1 = write.1) || scope.code.isDominatedBy write.1 position.1) &&
        !(decide (position.1 = write.1) && decide (write.2 ≤ position.2)) &&
        (mandatoryArgument ir).any fun value => scope.conditionPinsRecord target 5 value

end Scope

inductive ClearingShape
  | delete
  | zeroAssignment
  | decrement
  | assignedDifference
  | flagFlip
deriving DecidableEq

namespace Scope
variable (scope : Scope)

def subtractsFromTheRecord (ir : Ir) (target : AccessPath) : Bool :=
  (minuendOf ir).any fun left => scope.readsRecordValue left target

-- The record's own cell is written.
def exactShape (ir : Ir) (target : AccessPath) : Option ClearingShape :=
  match ir with
  | .binary .subtraction _ _ _ => if scope.subtractsFromTheRecord ir target then some .decrement else none
  | .assignment _ rvalue =>
    if isZeroConstant rvalue then some .zeroAssignment
    else if (scope.valueDef rvalue).any fun source => scope.subtractsFromTheRecord source target then
      some .assignedDifference
    else none
  | _ => none

-- Another member of the record's element is written.
def flagShape (ir : Ir) (position : Position) (base : String) (written steps : List PathStep) : Option ClearingShape :=
  match ir with
  | .assignment _ rvalue =>
    if isFalseConstant rvalue ∧ written.getLast?.any PathStep.isMember ∧ written.dropLast = elementSteps steps ∧
      scope.hasMandatoryMemberPredicate position (base,written) then some .flagFlip
    else none
  | _ => none

def writtenShape (ir : Ir) (position : Position) (base : String) (written steps : List PathStep) :
    Option ClearingShape :=
  if written = steps then scope.exactShape ir (base,steps) else scope.flagShape ir position base written steps

def clearingShape (ir : Ir) (position : Position) (base : String) (steps : List PathStep) : Option ClearingShape :=
  match ir with
  | .delete _ target =>
    match scope.pathOf target with
    | some (deletedBase,deleted) =>
      if deletedBase = base ∧ steps.take deleted.length = deleted then some .delete else none
    | none => none
  | _ =>
    match ir.lvalue.bind scope.pathOf with
    | some (writtenBase,written) =>
      if writtenBase = base then scope.writtenShape ir position base written steps else none
    | none => none

end Scope

-- The place an instruction writes; taking a reference writes nothing.
def Ir.target : Ir → Option Value
  | .index .. => none
  | .member .. => none
  | .delete _ target => some target
  | ir => ir.lvalue

def Ir.isPlain : Ir → Bool
  | .index .. => false
  | .member .. => false
  | .internalCall .. => false
  | .libraryCall .. => false
  | .internalDynamicCall _ => false
  | _ => true

-- How the written path lies to the record's.
def ClearingShape.Covers (shape : ClearingShape) (written steps : List PathStep) : Prop :=
  match shape with
  | .delete => written <+: steps
  | .flagFlip => ∃ name, written = elementSteps steps ++ [.member name]
  | _ => written = steps

namespace Scope
variable {scope : Scope}

theorem exactShape_covers (shaped : scope.exactShape ir (base,steps) = some shape) :
    shape.Covers steps steps ∧ ir.target = ir.lvalue ∧ ir.isPlain := by
  unfold exactShape at shaped
  split at shaped
  · split at shaped
    · cases shaped
      exact ⟨rfl,rfl,rfl⟩
    · cases shaped
  · split at shaped
    · cases shaped
      exact ⟨rfl,rfl,rfl⟩
    · split at shaped
      · cases shaped
        exact ⟨rfl,rfl,rfl⟩
      · cases shaped
  · cases shaped

theorem flagShape_covers (shaped : scope.flagShape ir position base written steps = some shape) :
    shape.Covers written steps ∧ ir.target = ir.lvalue ∧ ir.isPlain := by
  unfold flagShape at shaped
  split at shaped
  · split at shaped
    · rename_i found
      obtain ⟨_,last,element,_⟩ := found
      cases shaped
      refine ⟨?_,rfl,rfl⟩
      cases final : written.getLast? with
      | none => simp [final] at last
      | some step =>
        cases step with
        | index key => simp [final,PathStep.isMember] at last
        | member name => exact ⟨name,by rw [← element,List.dropLast_append_getLast? _ final]⟩
    · cases shaped
  · cases shaped

theorem writtenShape_covers (shaped : scope.writtenShape ir position base written steps = some shape) :
    shape.Covers written steps ∧ ir.target = ir.lvalue ∧ ir.isPlain := by
  unfold writtenShape at shaped
  split at shaped
  · rename_i same
    subst same
    exact exactShape_covers shaped
  · exact flagShape_covers shaped

theorem clearingShape_target (shaped : scope.clearingShape ir position base steps = some shape) :
    ir.isPlain ∧ ∃ target written, ir.target = some target ∧ scope.pathOf target = some
    (base,written) ∧ shape.Covers written steps := by
  unfold clearingShape at shaped
  split at shaped
  · rename_i lvalue target
    cases resolved : scope.pathOf target with
    | none => simp [resolved] at shaped
    | some path =>
      obtain ⟨deletedBase,deleted⟩ := path
      simp only [resolved] at shaped
      split at shaped
      · rename_i same
        obtain ⟨rfl,taken⟩ := same
        cases shaped
        exact ⟨rfl,target,deleted,rfl,resolved,List.prefix_iff_eq_take.mpr taken.symm⟩
      · cases shaped
  · cases resolved : ir.lvalue.bind scope.pathOf with
    | none => simp [resolved] at shaped
    | some path =>
      obtain ⟨writtenBase,written⟩ := path
      simp only [resolved] at shaped
      split at shaped
      · rename_i same
        subst same
        obtain ⟨lvalue,assigned,path⟩ := Option.bind_eq_some_iff.mp resolved
        obtain ⟨covers,target,plain⟩ := writtenShape_covers shaped
        exact ⟨plain,lvalue,written,target.trans assigned,path,covers⟩
      · cases shaped

end Scope

end Psat.Ordering
