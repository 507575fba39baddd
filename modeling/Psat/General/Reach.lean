import Mathlib.Data.List.Basic
import Mathlib.Logic.Relation

namespace Psat.General

-- The states of a transition system, from its initial states on.
inductive Reachable (init : σ → Prop) (step : σ → σ → Prop) : σ → Prop
  | start {s : σ} : init s → Reachable init step s
  | next {s s' : σ} : Reachable init step s → step s s' → Reachable init step s'

theorem Reachable.invariant {inv : σ → Prop}
    (initial : ∀ s, init s → inv s) (preserved : ∀ s s', inv s → step s s' → inv s') (reached : Reachable init step s) :
    inv s := by
  induction reached with
  | start first => exact initial _ first
  | next _ step ih => exact preserved _ _ ih step

theorem run_keeps {inv : σ → Prop} (preserved : ∀ s s', inv s → step s s' → inv s')
    (run : Relation.ReflTransGen step s s') (holds : inv s) : inv s' := by
  induction run with
  | refl => exact holds
  | tail _ step ih => exact preserved _ _ ih step

-- The nodes on the way from the entry to a node, the last one first.
inductive Trail (entry : α) (next : α → α → Prop) : List α → α → Prop
  | start : Trail entry next [entry] entry
  | step {way : List α} {a b : α} : Trail entry next way a → next a b → Trail entry next (b :: way) b

def Dominates (entry : α) (next : α → α → Prop) (m n : α) : Prop := ∀ way, Trail entry next way n → m ∈ way

theorem dominates_entry (dominated : Dominates entry next m entry) : m = entry :=
  List.mem_singleton.mp (dominated _ .start)

theorem dominates_before (dominated : Dominates entry next m b) (other : m ≠ b) (edge : next a b) :
    Dominates entry next m a := by
  intro way trail
  cases dominated _ (trail.step edge) with
  | head => exact absurd rfl other
  | tail _ earlier => exact earlier

end Psat.General
