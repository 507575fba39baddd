import Psat.Ordering.Machine

namespace Psat.Ordering
open Psat.General List

def Ran (trace : List Executed) (visit : Visit) (position : Position) : Prop :=
  ∃ event ∈ trace, event.visit = visit ∧ event.position = position

-- Positions every way to a position has passed.
def Before (code : Code) (earlier later : Position) : Prop :=
  earlier.1 = later.1 ∧ earlier.2 < later.2 ∨ earlier.1 ≠ later.1 ∧ Dominates 0 code.Edge earlier.1 later.1

section
variable (program : UnitId → CodeUnit)

-- Everything that dominates the exits of the visit's unit has run.
def RanThrough (trace : List Executed) (visit : Visit) : Prop :=
  ∀ position ir, (program visit.unit).irAt position = some ir → (program visit.unit).dominatesAllExits position.1 =
    true →
    Ran trace visit position

-- What is before the position has run, and the units called there have run through.
def Reached (trace : List Executed) (visit : Visit) (here : Position) : Prop :=
  ∀ position ir, (program visit.unit).irAt position = some ir → Before (program visit.unit).toCode position here →
    Ran trace visit position ∧ ∀ callee arguments, ir.called = some (some callee,arguments) →
      RanThrough program trace (visit.callee program position callee arguments)

def Traced (function : UnitId) (trace : List Executed) (path : List Position) : Prop :=
  ∀ outer here rest, Visited program function outer → path = outer.path ++ here :: rest →
    Reached program trace outer here

end

theorem ordered_before {unit : CodeUnit} (placed : ordered unit.toCode write call = true) :
    Before unit.toCode write call := by
  unfold ordered at placed
  split at placed
  · rename_i same
    exact .inl ⟨same,by simpa using placed⟩
  · rename_i other
    refine .inr ⟨other,unit.dominators_right call.1 write.1 ?_⟩
    simpa [Code.isDominatedBy] using placed

theorem Ran.later (ran : Ran trace visit position) (event : Executed) : Ran (event :: trace) visit position := by
  obtain ⟨found,listed,same⟩ := ran
  exact ⟨found,mem_cons_of_mem _ listed,same⟩

theorem RanThrough.later (through : RanThrough program trace visit) (event : Executed) :
    RanThrough program (event :: trace) visit :=
  fun position ir there exits => (through position ir there exits).later event

theorem Reached.later (reached : Reached program trace visit here) (event : Executed) :
    Reached program (event :: trace) visit here := by
  intro position ir there before
  obtain ⟨ran,calls⟩ := reached position ir there before
  exact ⟨ran.later event,fun callee arguments called => (calls callee arguments called).later event⟩

theorem Traced.later (traced : Traced program function trace path) (event : Executed) :
    Traced program function (event :: trace) path :=
  fun outer here rest visited split => (traced outer here rest visited split).later event

theorem Traced.extend (traced : Traced program function trace visit.path) (visited : Visited program function visit)
    (reached : Reached program trace visit here) : Traced program function trace (visit.path ++ [here]) := by
  intro outer there rest outerVisited split
  cases eq_nil_or_concat rest with
  | inl none =>
    subst none
    obtain ⟨path,last⟩ := append_inj' split rfl
    cases last
    cases outerVisited.unique visited path.symm
    exact reached
  | inr more =>
    obtain ⟨front,last,shape⟩ := more
    subst shape
    have longer : visit.path ++ [here] = (outer.path ++ there :: front) ++ [last] := by
      rw [split]
      simp
    exact traced outer there front outerVisited (append_inj' longer rfl).1

theorem Reached.entry : Reached program trace visit (0,0) := by
  intro position ir there before
  cases before with
  | inl same => exact absurd same.2 (by simp)
  | inr dominates => exact absurd (dominates_entry dominates.2) dominates.1

section
variable (reached : Reached program trace visit (node,index))
include reached

theorem Reached.next
    (passed : ∀ ir, (program visit.unit).irAt (node,index) = some ir → Ran trace visit (node,index) ∧
      ∀ callee arguments, ir.called = some (some callee,arguments) →
        RanThrough program trace (visit.callee program (node,index) callee arguments)) :
        Reached program trace visit (node,index + 1) := by
  intro position ir there before
  obtain ⟨n,i⟩ := position
  cases before with
  | inl same =>
    obtain ⟨rfl,less⟩ := same
    by_cases last : i = index
    · subst last
      exact passed ir there
    · exact reached (n,i) ir there (.inl ⟨rfl,by simp only; omega⟩)
  | inr dominates => exact reached (n,i) ir there (.inr dominates)

theorem Reached.jump (done : (program visit.unit).lengthAt node ≤ index)
    (edge : son ∈ (program visit.unit).sonsOf node) : Reached program trace visit (son,0) := by
  intro position ir there before
  obtain ⟨n,i⟩ := position
  cases before with
  | inl same => exact absurd same.2 (by simp)
  | inr dominates =>
    refine reached (n,i) ir there ?_
    by_cases same : n = node
    · subst same
      have inside := (program visit.unit).irAt_lt there
      exact .inl ⟨rfl,by simp only at inside ⊢; omega⟩
    · exact .inr ⟨same,dominates_before dominates.2 dominates.1 edge⟩

theorem Reached.through (done : (program visit.unit).lengthAt node ≤ index)
    (exit : node ∈ (program visit.unit).exits) : RanThrough program trace visit := by
  intro position ir there exits
  obtain ⟨n,i⟩ := position
  refine (reached (n,i) ir there ?_).1
  simp only [Code.dominatesAllExits,Bool.and_eq_true,all_eq_true,Bool.or_eq_true,decide_eq_true_eq] at exits
  by_cases same : n = node
  · subst same
    have inside := (program visit.unit).irAt_lt there
    exact .inl ⟨rfl,by simp only at inside ⊢; omega⟩
  · refine .inr ⟨same,(program visit.unit).dominators_right node n ?_⟩
    cases exits.2 node exit with
    | inl equal => exact absurd equal.symm same
    | inr dominated => simpa [Code.isDominatedBy] using dominated

end

end Psat.Ordering
