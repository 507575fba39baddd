import Mathlib.Algebra.BigOperators.Group.List.Basic
import Mathlib.Algebra.GroupWithZero.Nat
import Psat.Ordering.Proven

namespace Psat.Ordering
open Psat.General List

namespace Code
variable (code : Code)

def OnCycle (n : Nat) : Prop := Relation.TransGen code.Edge n n

def Heads (header n : Nat) : Prop := code.typeOf header = .ifLoop ∧ header ∈ code.dominatorsOf n

-- Every cycle through the node passes a loop condition that dominates it: without these no cycle is left.
def HeaderFirst (n : Nat) : Prop := ¬Relation.TransGen (fun a b => code.Edge a b ∧ ¬code.Heads b n) n n

-- The walk from the header has taken every father of a node it has seen.
structure Backward (header : Nat) (s : List Nat × List Nat) : Prop where
  started : header ∈ s.1 ++ s.2
  closed : ∀ node ∈ s.1, code.fathersOf node ⊆ s.1 ++ s.2

def unseen (seen : List Nat) : List Nat := (List.range code.nodes.length).filter (· ∉ seen)

def left (s : List Nat × List Nat) : Nat := s.2.length + ((code.unseen s.1).map fun n => (code.fathersOf n).length).sum

variable {code}

theorem left_new (new : node ∉ seen) :
    (code.fathersOf node).length + ((code.unseen (node :: seen)).map fun n => (code.fathersOf n).length).sum ≤
      ((code.unseen seen).map fun n => (code.fathersOf n).length).sum := by
  have fewer : code.unseen (node :: seen) = (code.unseen seen).erase node := by
    unfold unseen
    rw [Nodup.erase_eq_filter (nodup_range.filter _),filter_filter]
    apply filter_congr
    intro other _
    rw [Bool.eq_iff_iff]
    simp [not_or]
  rw [fewer]
  by_cases inside : node < code.nodes.length
  · have member : node ∈ code.unseen seen := mem_filter.mpr ⟨mem_range.mpr inside,by simpa using new⟩
    exact Nat.le_of_eq (sum_map_erase (fun n => (code.fathersOf n).length) member)
  · have none : code.nodes[node]? = none := getElem?_eq_none (by omega)
    have outside : node ∉ code.unseen seen := fun member => inside (mem_range.mp (mem_of_mem_filter member))
    rw [erase_of_not_mem outside]
    simp [fathersOf,none]

theorem backward_round (s s' : List Nat × List Nat) (kept : code.Backward header s) (next : code.backward s = some s') :
    code.Backward header s' ∧ code.left s' < code.left s := by
  obtain ⟨seen,waiting⟩ := s
  cases waiting with
  | nil => cases next
  | cons node waiting =>
    unfold backward at next
    dsimp only at next
    split at next
    · rename_i old
      cases next
      have same : seen ++ node :: waiting ⊆ seen ++ waiting := by
        simp [old]
      refine ⟨⟨same kept.started,fun other inside => List.Subset.trans (kept.closed other inside) same⟩,?_⟩
      simp [left]
    · rename_i new
      cases next
      have same : seen ++ node :: waiting ⊆ node :: seen ++ ((code.fathersOf node).reverse ++ waiting) := by
        intro other inside
        simp only [mem_append,mem_cons] at inside ⊢
        tauto
      refine ⟨⟨same kept.started,?_⟩,?_⟩
      · intro other inside
        cases mem_cons.mp inside with
        | inl here =>
          subst here
          intro father member
          simp [member]
        | inr earlier => exact List.Subset.trans (kept.closed other earlier) same
      · have fewer := @left_new code _ _ new
        simp only [left,length_append,length_reverse,length_cons]
        omega

theorem mem_reaching (back : Relation.ReflTransGen (fun node father => father ∈ code.fathersOf node) header n) :
    n ∈ code.reaching header := by
  have fathers : (List.range code.nodes.length).map (fun n => (code.fathersOf n).length) = code.nodes.map
    fun node => node.fathers.length :=
    ext_getElem (by simp) (by simp +contextual [fathersOf])
  have fits : code.left ([],[header]) ≤ 1 + (code.nodes.flatMap Node.fathers).length := by
    simp [left,unseen,fathers,length_flatMap]
  obtain ⟨kept,ended⟩ := Loop.run_ends (code.Backward header) code.left backward_round _ ([],[header])
    ⟨by simp,fun _ none => absurd none not_mem_nil⟩ fits
  have done : (Loop.run code.backward (1 + (code.nodes.flatMap Node.fathers).length) ([],[header])).2 = [] := by
    unfold backward at ended
    split at ended
    · assumption
    · split at ended <;> cases ended
  induction back with
  | refl =>
    have inside := kept.started
    rw [done,append_nil] at inside
    exact inside
  | tail _ father ih =>
    have inside := kept.closed _ ih father
    rw [done,append_nil] at inside
    exact inside

theorem looped_of_back (heads : code.Heads header n)
    (back : Relation.ReflTransGen (fun node father => father ∈ code.fathersOf node) header n) :
    code.loopContext n ≠ [] := by
  have inside : header < code.nodes.length := by
    by_contra outside
    have none : code.nodes[header]? = none := getElem?_eq_none (by omega)
    have type := heads.1
    simp [typeOf,none] at type
  refine ne_nil_of_mem (mem_filter.mpr ⟨mem_range.mpr inside,?_⟩)
  simp [heads.1,isDominatedBy,heads.2,mem_reaching back]

-- A way from the node either avoids the loop conditions that dominate it or comes to one.
theorem way_to_header (way : Relation.TransGen code.Edge n m) :
    Relation.TransGen (fun a b => code.Edge a b ∧ ¬code.Heads b n) n m ∨
      ∃ header, code.Heads header n ∧ Relation.ReflTransGen code.Edge n header := by
  induction way with
  | @single b edge =>
    by_cases heads : code.Heads b n
    · exact .inr ⟨b,heads,.single edge⟩
    · exact .inl (.single ⟨edge,heads⟩)
  | @tail b c way edge ih =>
    rcases ih with avoiding | passed
    · by_cases heads : code.Heads c n
      · exact .inr ⟨c,heads,way.to_reflTransGen.tail edge⟩
      · exact .inl (avoiding.tail ⟨edge,heads⟩)
    · exact .inr passed

end Code

theorem CodeUnit.looped_of_cycle (unit : CodeUnit) (first : unit.HeaderFirst n) (cycle : unit.OnCycle n) :
    unit.loopContext n ≠ [] := by
  rcases Code.way_to_header cycle with avoiding | ⟨header,heads,way⟩
  · exact absurd avoiding first
  · refine Code.looped_of_back heads ?_
    clear heads
    induction way with
    | refl => exact .refl
    | tail _ edge ih => exact .head (unit.fathers_right _ _ edge) ih

def Site.levels (site : Site) : List (UnitId × Nat) := (site.path.zip site.units).map fun level => (level.2,level.1.1)

-- Where a write and a call are, unit by unit: `above` the calls that both are reached through, `compared` where
-- their paths part and what the write is reached through from there, `below` the same of the call.
structure Levels where
  above : List (UnitId × Nat)
  compared : List (UnitId × Nat)
  below : List (UnitId × Nat)

def levels (write call : Site) : Levels :=
  let shared := sharedLength write.path call.path
  let own := write.levels.drop shared
  { above:=write.levels.take shared
    compared:=own ++ (own.zip ((call.path.drop shared).take 1)).map fun parted => (parted.1.1,parted.2.1)
    below:=call.levels.drop (shared + 1) }

section
variable {program : UnitId → CodeUnit}

theorem nestedRuns_unlooped (runs : nestedRuns program nested = .ok ()) :
    ∀ level ∈ nested, (program level.2).loopContext level.1.1 = [] := by
  induction nested with
  | nil => exact fun _ none => nomatch none
  | cons first deeper ih =>
    unfold nestedRuns at runs
    split at runs
    · cases runs
    · split at runs
      · cases runs
      · rename_i unlooped
        intro level listed
        cases mem_cons.mp listed with
        | inl same => rw [same]; simpa using unlooped
        | inr deep => exact ih runs level deep

-- A proof without the disclosure found none of the nodes it compared in a loop.
theorem compared_unlooped (before : precedes program write call = .ok false) :
    ∀ level ∈ (levels write call).compared, (program level.1).loopContext level.2 = [] := by
  obtain ⟨w,unit,nested,c,rest,parted,called,_,_,runs,same,looped⟩ := precedes_parts before
  have none : (program unit).loopContext w.1 = [] := by simpa using looped.symm
  have own : write.levels.drop (sharedLength write.path call.path) =
      (unit,w.1) :: nested.map fun level => (level.2,level.1.1) := by
    rw [Site.levels,← map_drop,parted,map_cons]
  have all : (levels write call).compared =
      ((unit,w.1) :: nested.map fun level => (level.2,level.1.1)) ++ [(unit,c.1)] := by
    simp only [levels,own,called,take_succ_cons,take_zero,zip_cons_cons,zip_nil_right,map_cons,map_nil]
  rw [all]
  intro level listed
  rcases mem_append.mp listed with written | last
  · cases mem_cons.mp written with
    | inl first => rw [first]; exact none
    | inr deep =>
      obtain ⟨inner,member,rfl⟩ := mem_map.mp deep
      exact nestedRuns_unlooped runs inner member
  · rw [mem_singleton.mp last]
    exact same.symm.trans none

def OffCycles (program : UnitId → CodeUnit) (levels : List (UnitId × Nat)) : Prop :=
  ∀ level ∈ levels, ¬(program level.1).OnCycle level.2

theorem undisclosed_off_cycles_iff
    (proven : proveRecordOrdering program function record assembly = .proven name shape false) :
    ∃ steps, recordSteps record = some steps ∧
    ∃ write ∈ (enumeration program function record.baseCanonical steps).writes,
      ∀ call ∈ (enumeration program function record.baseCanonical steps).calls,
      precedes program write call = .ok false ∧
        (OffCycles program ((levels write call).above ++ (levels write call).compared ++ (levels write call).below) ↔
          (∀ level ∈ (levels write call).compared, (program level.1).HeaderFirst level.2) ∧
            OffCycles program ((levels write call).above ++ (levels write call).below)) := by
  obtain ⟨steps,resolved,_,write,listed,each⟩ := proven_write proven
  refine ⟨steps,resolved,write,listed,fun call member => ?_⟩
  obtain ⟨inLoop,before,undisclosed⟩ := each call member
  obtain rfl := undisclosed rfl
  have unlooped := compared_unlooped before
  refine ⟨before,?_⟩
  simp only [OffCycles,forall_mem_append]
  constructor
  · rintro ⟨⟨above,compared⟩,below⟩
    refine ⟨?_,above,below⟩
    intro level inside avoiding
    exact compared level inside (Relation.TransGen.mono (fun _ _ edge => edge.1) _ _ avoiding)
  · rintro ⟨first,above,below⟩
    refine ⟨⟨above,?_⟩,below⟩
    intro level inside cycle
    exact (program level.1).looped_of_cycle (first level inside) cycle (unlooped level inside)

end

-- `do { delete bids[id]; payee.transfer(amount); } while (more);`
def drainProgram : UnitId → CodeUnit := fun _ => Code.unit
  {key:="Auction.drain(uint256)"
   parameters:=[0]
   nodes:=[
     {sons:=[1],dominators:=[0]},
     {sons:=[3],fathers:=[0],dominators:=[0,1]},
     {type:=.ifLoop,sons:=[3,4],fathers:=[3],dominators:=[0,1,3,2]},
     {irs:=deleteBid 0 ++ payOut,sons:=[2],fathers:=[1,2],dominators:=[0,1,3]},
     {fathers:=[2],dominators:=[0,1,3,2,4]}]} (by decide)

-- `_settle(id)` in the body of a `for` loop: it deletes the bid and pays.
def settleAllProgram : UnitId → CodeUnit
  | 0 => Code.unit
    {key:="Auction.settleAll(uint256)"
     parameters:=[0]
     nodes:=[
       {sons:=[1],dominators:=[0]},
       {type:=.ifLoop,sons:=[2,3],fathers:=[0,2],dominators:=[0,1]},
       {irs:=[.internalCall (some 1) [.localVar 0] none],sons:=[1],fathers:=[1],dominators:=[0,1,2]},
       {fathers:=[1],dominators:=[0,1,3]}]} (by decide)
  | _ => Code.unit
    {key:="Auction._settle(uint256)"
     parameters:=[1]
     nodes:=[
       {sons:=[1],dominators:=[0]},
       {irs:=deleteBid 1 ++ payOut,fathers:=[0],dominators:=[0,1]}]} (by decide)

-- Proven without the disclosure, and a clearing write and an external call on a cycle.
def Undisclosed (program : UnitId → CodeUnit) (write call : List Position) (level : UnitId × Nat) : Prop :=
  proveRecordOrdering program 0 bidRecord false = .proven "Auction.bids" (some .delete) false ∧
    (enumeration program 0 "Auction.bids" [.index (.param 0)]).writes.map Site.path = [write] ∧
    (enumeration program 0 "Auction.bids" [.index (.param 0)]).calls.map Site.path = [call] ∧
    (program level.1).OnCycle level.2

theorem do_while_undisclosed :
    Undisclosed drainProgram [(3,1)] [(3,2)] (0,3) ∧
      Undisclosed settleAllProgram [(2,0),(1,1)] [(2,0),(1,2)] (0,2) := by
  refine ⟨⟨by decide +kernel,by decide +kernel,by decide +kernel,?_⟩,
    ⟨by decide +kernel,by decide +kernel,by decide +kernel,?_⟩⟩
  · have ahead : 2 ∈ (drainProgram 0).sonsOf 3 := by decide
    have back : 3 ∈ (drainProgram 0).sonsOf 2 := by decide
    exact (Relation.TransGen.single ahead).tail back
  · have ahead : 1 ∈ (settleAllProgram 0).sonsOf 2 := by decide
    have back : 2 ∈ (settleAllProgram 0).sonsOf 1 := by decide
    exact (Relation.TransGen.single ahead).tail back

theorem cancel_off_cycles : ∃ write call, precedes cancelProgram write call = .ok false ∧
    (OffCycles cancelProgram ((levels write call).above ++ (levels write call).compared ++ (levels write call).below) ↔
      (∀ level ∈ (levels write call).compared, (cancelProgram level.1).HeaderFirst level.2) ∧
        OffCycles cancelProgram ((levels write call).above ++ (levels write call).below)) := by
  have proven : proveRecordOrdering cancelProgram 0 bidRecord false = .proven "Auction.bids" (some .delete) false := by
    decide +kernel
  obtain ⟨steps,resolved,write,_,each⟩ := undisclosed_off_cycles_iff proven
  cases resolved
  have paid : (enumeration cancelProgram 0 "Auction.bids" [.index (.param 0)]).calls.length = 1 := by decide +kernel
  obtain ⟨call,called⟩ := exists_mem_of_length_pos (by rw [paid]; decide)
  exact ⟨write,call,each call called⟩

end Psat.Ordering
