import Psat.General.Reach
import Psat.General.Loop

namespace Psat.Ordering
open Psat.General List

-- A literal is a boolean, or the number its text reads as, if it reads as one.
inductive Constant
  | bool (value : Bool)
  | number (value : Option Int)
deriving DecidableEq

-- Variables are compared by identity, so each carries the id of its object.
inductive Value
  | state (canonical : String)
  | reference (id : Nat)
  | temporary (id : Nat)
  | localVar (id : Nat)
  | tuple (id : Nat)
  | constant (value : Constant)
  | solidity (name : String)
deriving DecidableEq

inductive BinaryType
  | subtraction
  | andAnd
  | equal
  | other
deriving DecidableEq

inductive ExternalOp
  | highLevelCall
  | lowLevelCall
  | newContract
  | transfer
  | send
deriving DecidableEq

abbrev UnitId := Nat

-- A callee is named by its place in the program; one without a target is `none`.
inductive Ir
  | index (lvalue left right : Value)
  | member (lvalue left : Value) (name : String)
  | delete (lvalue target : Value)
  | assignment (lvalue rvalue : Value)
  | binary (type : BinaryType) (lvalue left right : Value)
  | unary (lvalue operand : Value)
  | typeConversion (lvalue operand : Value)
  | solidityCall (name : String) (arguments : List Value) (lvalue : Option Value)
  | internalCall (function : Option UnitId) (arguments : List Value) (lvalue : Option Value)
  | libraryCall (function : Option UnitId) (arguments : List Value) (lvalue : Option Value)
  | internalDynamicCall (lvalue : Option Value)
  | externalCall (op : ExternalOp) (lvalue : Option Value)
  | other (lvalue : Option Value)
deriving DecidableEq

namespace Ir

def lvalue : Ir → Option Value
  | .index lvalue _ _ => some lvalue
  | .member lvalue _ _ => some lvalue
  | .delete lvalue _ => some lvalue
  | .assignment lvalue _ => some lvalue
  | .binary _ lvalue _ _ => some lvalue
  | .unary lvalue _ => some lvalue
  | .typeConversion lvalue _ => some lvalue
  | .solidityCall _ _ lvalue => lvalue
  | .internalCall _ _ lvalue => lvalue
  | .libraryCall _ _ lvalue => lvalue
  | .internalDynamicCall lvalue => lvalue
  | .externalCall _ lvalue => lvalue
  | .other lvalue => lvalue

def isAccess : Ir → Bool
  | .index .. => true
  | .member .. => true
  | _ => false

def isValueDef : Ir → Bool
  | .binary .. => true
  | .unary .. => true
  | .assignment .. => true
  | .typeConversion .. => true
  | _ => false

end Ir

inductive NodeType
  | ifLoop
  | placeholder
  | other
deriving DecidableEq

-- Other nodes of the unit are named by their position.
structure Node where
  type : NodeType := .other
  irs : List Ir := []
  sons : List Nat := []
  fathers : List Nat := []
  dominators : List Nat := []
deriving DecidableEq

-- `memoryLocals` are the locals, parameters too, of a type that memory holds: a string, bytes, an array or a struct.
structure Code where
  key : String
  isModifier : Bool := false
  parameters : List Nat := []
  memoryLocals : List Nat := []
  nodes : List Node

-- A node and the index of an instruction in it.
abbrev Position := Nat × Nat

namespace Code
variable (code : Code)

def irs : List Ir := code.nodes.flatMap Node.irs

def irAt (position : Position) : Option Ir := code.nodes[position.1]?.bind fun node => node.irs[position.2]?

def sonsOf (n : Nat) : List Nat := (code.nodes[n]?.map Node.sons).getD []

def fathersOf (n : Nat) : List Nat := (code.nodes[n]?.map Node.fathers).getD []

def dominatorsOf (n : Nat) : List Nat := (code.nodes[n]?.map Node.dominators).getD []

def typeOf (n : Nat) : NodeType := (code.nodes[n]?.map Node.type).getD .other

def lengthAt (n : Nat) : Nat := (code.nodes[n]?.map fun node => node.irs.length).getD 0

def Edge (a b : Nat) : Prop := b ∈ code.sonsOf a

def positions : List (Position × Ir) :=
  code.nodes.zipIdx.flatMap fun (node,n) => node.irs.zipIdx.map fun (ir,i) => ((n,i),ir)

def isDominatedBy (node candidate : Nat) : Bool := decide (candidate ∈ code.dominatorsOf node)

theorem mem_positions : (position,ir) ∈ code.positions ↔ code.irAt position = some ir := by
  obtain ⟨n,i⟩ := position
  simp only [positions,irAt,mem_flatMap,Prod.exists,mem_zipIdx_iff_getElem?,mem_map,Prod.mk.injEq,
    Option.bind_eq_some_iff]
  constructor
  · intro ⟨node,m,found,other,j,there,⟨same,index⟩,kind⟩
    subst same index kind
    exact ⟨node,found,there⟩
  · intro ⟨node,found,there⟩
    exact ⟨node,n,found,ir,i,there,⟨rfl,rfl⟩,rfl⟩

theorem irAt_mem (found : code.irAt position = some ir) : ir ∈ code.irs := by
  obtain ⟨node,there,member⟩ := Option.bind_eq_some_iff.mp found
  exact mem_flatMap.mpr ⟨node,mem_of_getElem? there,mem_of_getElem? member⟩

theorem irAt_lt (found : code.irAt position = some ir) : position.2 < code.lengthAt position.1 := by
  obtain ⟨node,there,member⟩ := Option.bind_eq_some_iff.mp found
  obtain ⟨bound,_⟩ := List.getElem?_eq_some_iff.mp member
  simpa [lengthAt,there] using bound

end Code

-- A unit whose graph and instructions are right.
structure CodeUnit extends Code where
  references_once : ∀ ir ∈ toCode.irs, ∀ other ∈ toCode.irs, ir.isAccess → other.isAccess →
    ir.lvalue = other.lvalue → ir = other
  placeholder_modifier : isModifier = false → ∀ n, toCode.typeOf n ≠ .placeholder
  fathers_right : ∀ a b, toCode.Edge a b → a ∈ toCode.fathersOf b
  dominators_right : ∀ n, ∀ m ∈ toCode.dominatorsOf n, Dominates 0 toCode.Edge m n

namespace Code

-- The same by inspection: dominators as their equations say.
def wellFormed (code : Code) : Bool :=
  (code.irs.all fun ir => code.irs.all fun other =>
      !(ir.isAccess && other.isAccess && decide (ir.lvalue = other.lvalue)) || decide (ir = other)) &&
    (code.isModifier || code.nodes.all fun node => decide (node.type ≠ .placeholder)) &&
    decide (code.dominatorsOf 0 ⊆ [0]) &&
    (List.range code.nodes.length).all fun a => (code.sonsOf a).all fun b =>
        decide (a ∈ code.fathersOf b) && decide (code.dominatorsOf b ⊆ b :: code.dominatorsOf a)

theorem dominators_on_trail {code : Code} (entry : code.dominatorsOf 0 ⊆ [0])
    (edges : ∀ a b, code.Edge a b → code.dominatorsOf b ⊆ b :: code.dominatorsOf a)
    (trail : Trail 0 code.Edge way n) : code.dominatorsOf n ⊆ way := by
  induction trail with
  | start => exact entry
  | step _ edge ih =>
    intro m listed
    cases edges _ _ edge listed with
    | head => exact mem_cons_self
    | tail _ earlier => exact mem_cons_of_mem _ (ih earlier)

theorem edge_inside {code : Code} (edge : code.Edge a b) : a ∈ List.range code.nodes.length := by
  refine mem_range.mpr ?_
  by_contra outside
  have none : code.nodes[a]? = none := getElem?_eq_none (by omega)
  simp [Edge,sonsOf,none] at edge

theorem typeOf_placeholder {code : Code} (placed : code.typeOf n = .placeholder) :
    ∃ node ∈ code.nodes, node.type = .placeholder := by
  unfold typeOf at placed
  cases found : code.nodes[n]? with
  | none => simp [found] at placed
  | some node => exact ⟨node,mem_of_getElem? found,by simpa [found] using placed⟩

def unit (code : Code) (formed : code.wellFormed = true) : CodeUnit where
  toCode := code
  references_once := by
    simp only [wellFormed,Bool.and_eq_true,decide_eq_true_eq,all_eq_true,Bool.or_eq_true] at formed
    intro ir listed other listed' access access' same
    have once := formed.1.1.1 ir listed other listed'
    simpa [access,access',same] using once
  placeholder_modifier := by
    simp only [wellFormed,Bool.and_eq_true,Bool.or_eq_true,all_eq_true,decide_eq_true_eq] at formed
    intro unmodified n placed
    obtain ⟨node,listed,same⟩ := typeOf_placeholder placed
    cases formed.1.1.2 with
    | inl modifier => simp [unmodified] at modifier
    | inr none => exact none node listed same
  fathers_right := by
    simp only [wellFormed,Bool.and_eq_true,decide_eq_true_eq,all_eq_true] at formed
    exact fun a b edge => (formed.2 a (edge_inside edge) b edge).1
  dominators_right := by
    simp only [wellFormed,Bool.and_eq_true,decide_eq_true_eq,all_eq_true] at formed
    intro n m listed way trail
    exact dominators_on_trail formed.1.2 (fun a b edge => (formed.2 a (edge_inside edge) b edge).2) trail listed

end Code

end Psat.Ordering
