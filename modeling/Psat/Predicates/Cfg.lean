import Mathlib.Data.Fintype.Pi
import Psat.General.Loop
import Psat.General.Ordered

namespace Psat.Predicates
open Psat.General

inductive NodeType
  | ifNode
  | returnNode
  | tryNode
  | catchNode
  | other
deriving DecidableEq

-- One node of a function. Sons are named by their position.
structure Node where
  type : NodeType
  sons : List (Option Nat) := []
  sonTrue : Option Nat := none
  sonFalse : Option Nat := none
  condition : Bool := false
  terminates : Bool := false
deriving DecidableEq

-- `foreign` types the nodes outside the list that a son may point to.
structure Function where
  nodes : List Node
  foreign : Nat → NodeType := fun _ => .other

namespace Node

def uniqueSons (node : Node) : List Nat := Ordered.unique (node.sons.filterMap id)

end Node

namespace Function
variable (f : Function)

def count : Nat := f.nodes.length

instance (i : Fin f.count) (among : List (Fin f.count)) : Decidable (i ∈ among) :=
  List.instDecidableMemOfLawfulBEq i among

def node (i : Fin f.count) : Node := f.nodes.get i

def typeOf (i : Nat) : NodeType := (f.nodes[i]?.map Node.type).getD (f.foreign i)

def index (i : Nat) : Option (Fin f.count) := if inside : i < f.count then some ⟨i,inside⟩ else none

def linked (i : Fin f.count) : List Nat :=
  let sons := (f.node i).uniqueSons
  if (f.node i).type = .tryNode then
    -- A `try` is also linked to the statement after it, but a clause runs first.
    let clauses := sons.filter fun son => f.typeOf son = .catchNode
    if clauses.isEmpty then sons else clauses
  else sons

def succ (i : Fin f.count) : List (Fin f.count) :=
  if (f.node i).type = .returnNode then []
  else if (f.node i).terminates then []
  else (f.linked i).filterMap f.index

def isExit (i : Fin f.count) : Bool :=
  if (f.node i).type = .returnNode then true
  else if (f.node i).terminates then false
  else (f.succ i).isEmpty

def preds (i : Fin f.count) : List (Fin f.count) := (List.finRange f.count).filter fun p => i ∈ f.succ p

structure Spread where
  marked : Fin f.count → Bool
  work : List (Fin f.count)

variable {f} in
def Spread.mark (s : Spread f) (p : Fin f.count) : Spread f :=
  if s.marked p then s else {marked:=Function.update s.marked p true,work:=p :: s.work}

def spread (s : Spread f) : Option (Spread f) :=
  match s.work with
  | [] => none
  | i :: rest => some ((f.preds i).foldl Spread.mark {s with work:=rest})

def exits : Spread f where
  marked := f.isExit
  work := ((List.finRange f.count).filter f.isExit).reverse

def reachesExit : Fin f.count → Bool := (Loop.run f.spread (2 * f.count) f.exits).marked

def exitBit : Nat := 1 <<< f.count

def full : Nat := (1 <<< (f.count + 1)) - 1

def live (i : Fin f.count) : List (Fin f.count) := (f.succ i).filter f.reachesExit

def pdomValue (pdom : Fin f.count → Nat) (i : Fin f.count) : Nat :=
  (f.live i).foldl (fun acc s => acc &&& pdom s) (if f.isExit i then f.exitBit else f.full) ||| (1 <<< i.val)

def pdomUpdate (pdom : Fin f.count → Nat) (i : Fin f.count) : Fin f.count → Nat :=
  if f.reachesExit i then Function.update pdom i (f.pdomValue pdom i) else pdom

-- One round over all nodes, the last node first; over when nothing changed.
def pdomRound (pdom : Fin f.count → Nat) : Option (Fin f.count → Nat) :=
  let next := (List.finRange f.count).reverse.foldl f.pdomUpdate pdom
  if next = pdom then none else some next

def pdom : Fin f.count → Nat := Loop.run f.pdomRound (f.count * 2 ^ (f.count + 1)) fun _ => f.full

-- `pdom[s] & ~strict` at one node, `strict` being `pdom[b] & ~(1 << b)`.
def dependent (b s n : Fin f.count) : Bool := (f.pdom s).testBit n && !((f.pdom b).testBit n && n != b)

def controlParents (n : Fin f.count) : List (Fin f.count × Fin f.count) :=
  (List.finRange f.count).flatMap fun b =>
      if (f.succ b).length < 2 ∨ ¬ f.reachesExit b then []
      else ((f.succ b).filter fun s => f.reachesExit s && f.dependent b s n).map fun s => (b,s)

end Function

end Psat.Predicates
