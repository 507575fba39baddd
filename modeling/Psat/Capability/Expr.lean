import Mathlib.Data.String.Basic
import Psat.Capability.Terms
import Psat.General.Sorted

namespace Psat.Capability
open Psat.General

-- Lowercase, sorted, each once.
def canonAddresses (values : List String) : List String := Sorted.sortedSet (values.map Text.lower)

theorem mem_canonAddresses (values : List String) (address : String) :
    address ∈ canonAddresses values ↔ ∃ value ∈ values, Text.lower value = address := by
  simp [canonAddresses]

-- What the resolver computes with, before it is serialized.
structure ExprFields where
  kind : CapKind
  members : Option (List String) := none
  threshold : Option (Nat × List String) := none
  blacklist : Option (List String) := none
  check : Option ExternalCheck := none
  conditions : List Condition := []
  unsupportedReason : Option String := none
  membershipQuality : MembershipQuality := .exact
  blacklistQuality : MembershipQuality := .exact
  confidence : CapabilityConfidence := .enumerable
  emptyReason : Option EmptyReason := none
  lastIndexedBlock : Option Nat := none
  exactAsOf : Option AsOf := none
  trace : List TraceStep := []
  subject : Subject := .root
deriving DecidableEq

structure CapabilityExpr extends ExprFields where
  signer : Option CapabilityExpr := none
  children : List CapabilityExpr := []

-- The source's keyword arguments are the fields of an update.
namespace CapabilityExpr

def finiteSet (members : List String) : CapabilityExpr where
  kind := .finiteSet
  members := some (canonAddresses members)

def cofiniteBlacklist (blacklist : List String) : CapabilityExpr where
  kind := .cofiniteBlacklist
  blacklist := some (canonAddresses blacklist)

def externalCheckOnly (check : ExternalCheck) : CapabilityExpr where
  kind := .externalCheckOnly
  check := some check
  confidence := .checkOnly

-- Anyone may call, given the side conditions.
def conditionalUniversal (condition : Condition) : CapabilityExpr where
  kind := .conditionalUniversal
  conditions := [condition]

def unsupported (reason : String) : CapabilityExpr where
  kind := .unsupported
  unsupportedReason := some reason
  confidence := .checkOnly

def structuralAnd : List CapabilityExpr → CapabilityExpr
  | [child] => child
  | children => {kind:=.and,children}

def structuralOr : List CapabilityExpr → CapabilityExpr
  | [child] => child
  | children => {kind:=.or,children}

end CapabilityExpr

theorem CapabilityExpr.tree_induction {motive : CapabilityExpr → Prop}
    (node : ∀ cap : CapabilityExpr, (∀ child ∈ cap.children, motive child) → motive cap) (cap : CapabilityExpr) :
    motive cap :=
  @CapabilityExpr.rec motive (fun _ => True) (fun caps => ∀ cap ∈ caps, motive cap)
    (fun fields signer children _ all => node ⟨fields,signer,children⟩ all)
    trivial (fun _ _ => trivial)
    (by simp)
    (fun head tail holds rest => by
        intro cap member
        cases List.mem_cons.mp member with
        | inl first => exact first ▸ holds
        | inr later => exact rest cap later)
    cap

mutual

def nodes : CapabilityExpr → List CapabilityExpr
  | ⟨fields,signer,children⟩ => ⟨fields,signer,children⟩ :: nodesAll children

def nodesAll : List CapabilityExpr → List CapabilityExpr
  | [] => []
  | child :: rest => nodes child ++ nodesAll rest

end

theorem mem_nodesAll : node ∈ nodesAll children ↔ ∃ child ∈ children, node ∈ nodes child := by
  induction children with
  | nil => simp [nodesAll]
  | cons child rest ih => simp [nodesAll,ih]

theorem mem_nodes : node ∈ nodes cap ↔ node = cap ∨ ∃ child ∈ cap.children, node ∈ nodes child := by
  cases cap
  rw [nodes,List.mem_cons,mem_nodesAll]

theorem self_mem_nodes (cap : CapabilityExpr) : cap ∈ nodes cap := mem_nodes.mpr (.inl rfl)

theorem exists_nodes {P : CapabilityExpr → Prop} (cap : CapabilityExpr) :
    (∃ node ∈ nodes cap, P node) ↔ P cap ∨ ∃ child ∈ cap.children, ∃ node ∈ nodes child, P node := by
  constructor
  · rintro ⟨node,member,holds⟩
    rcases mem_nodes.mp member with rfl | ⟨child,inside,below⟩
    · exact .inl holds
    · exact .inr ⟨child,inside,node,below,holds⟩
  · rintro (holds | ⟨child,inside,node,below,holds⟩)
    · exact ⟨cap,self_mem_nodes cap,holds⟩
    · exact ⟨node,mem_nodes.mpr (.inr ⟨child,inside,below⟩),holds⟩

theorem forall_nodes {P : CapabilityExpr → Prop} (cap : CapabilityExpr) :
    (∀ node ∈ nodes cap, P node) ↔ P cap ∧ ∀ child ∈ cap.children, ∀ node ∈ nodes child, P node := by
  constructor
  · intro all
    exact ⟨all cap (self_mem_nodes cap),fun child member node below => all node
      (mem_nodes.mpr (.inr ⟨child,member,below⟩))⟩
  · rintro ⟨top,under⟩ node member
    rcases mem_nodes.mp member with rfl | ⟨child,inside,below⟩
    · exact top
    · exact under child inside node below

theorem nodes_trans (member : node ∈ nodes cap) (below : deeper ∈ nodes node) : deeper ∈ nodes cap := by
  induction cap using CapabilityExpr.tree_induction with
  | node cap ih =>
    rcases mem_nodes.mp member with rfl | ⟨child,inside,lower⟩
    · exact below
    · exact mem_nodes.mpr (.inr ⟨child,inside,ih child inside lower⟩)

-- Default-valued keys are dropped; a denylist always states its quality.
def ExprFields.toDict (fields : ExprFields) : DictFields where
  kind := fields.kind
  members := fields.members
  threshold := fields.threshold
  blacklist := fields.blacklist
  check := fields.check
  conditions := fields.conditions
  unsupportedReason := fields.unsupportedReason
  membershipQuality := some fields.membershipQuality
  blacklistQuality :=
    if fields.kind = .cofiniteBlacklist then some fields.blacklistQuality
    else if fields.blacklistQuality ≠ .exact then some fields.blacklistQuality
    else none
  confidence := some fields.confidence
  emptyReason := fields.emptyReason
  lastIndexedBlock := fields.lastIndexedBlock
  exactAsOf := fields.exactAsOf
  trace := fields.trace
  subject := fields.subject

mutual

def capabilityToDict : CapabilityExpr → CapDict
  | ⟨fields,signer,children⟩ => ⟨fields.toDict,signerToDict signer,childrenToDict children⟩

def signerToDict : Option CapabilityExpr → Option CapDict
  | none => none
  | some signer => some (capabilityToDict signer)

def childrenToDict : List CapabilityExpr → List CapDict
  | [] => []
  | child :: rest => capabilityToDict child :: childrenToDict rest

end

theorem childrenToDict_eq_map (children : List CapabilityExpr) :
    childrenToDict children = children.map capabilityToDict := by
  induction children with
  | nil => rfl
  | cons child rest ih => rw [childrenToDict,ih,List.map_cons]

end Psat.Capability
