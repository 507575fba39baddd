import Mathlib.Order.Nat
import Psat.General.Ordered

namespace Psat.General

-- Computations, one for each budget, that stop exactly when a fixed amount passes the budget.
def Affordable (spent : σ → Nat) (x : Nat → StateT σ Option α) : Prop :=
  ∀ s, ∃ value s', spent s ≤ spent s' ∧ ∀ budget, spent s ≤ budget →
    (x budget).run s = if spent s' ≤ budget then some (value,s') else none

variable {spent : σ → Nat}

theorem Affordable.pure (value : α) : Affordable spent fun _ => (Pure.pure value : StateT σ Option α) := by
  intro s
  refine ⟨value,s,le_rfl,fun budget covered => ?_⟩
  simp [covered]

theorem Affordable.bind {f : Nat → α → StateT σ Option β}
    (first : Affordable spent x) (next : ∀ value, Affordable spent fun budget => f budget value) :
    Affordable spent fun budget => x budget >>= f budget := by
  intro s
  obtain ⟨value,middle,grew,ran⟩ := first s
  obtain ⟨answer,final,grew',ran'⟩ := next value middle
  refine ⟨answer,final,grew.trans grew',fun budget covered => ?_⟩
  rw [StateT.run_bind,ran budget covered]
  by_cases reached : spent middle ≤ budget
  · rw [if_pos reached]
    exact ran' budget reached
  · rw [if_neg reached,if_neg fun final_covered => reached (grew'.trans final_covered)]
    rfl

theorem Affordable.ite (c : Prop) [Decidable c] (yes : c → Affordable spent x) (no : ¬c → Affordable spent y) :
    Affordable spent fun budget => if c then x budget else y budget := by
  by_cases holds : c
  · simpa [holds] using yes holds
  · simpa [holds] using no holds

theorem Affordable.free {x : StateT σ Option α}
    (answers : ∀ s, ∃ value s', spent s' = spent s ∧ x.run s = some (value,s')) :
    Affordable spent fun _ => x := by
  intro s
  obtain ⟨value,s',same,ran⟩ := answers s
  refine ⟨value,s',same.ge,fun budget covered => ?_⟩
  rw [ran,if_pos (same.le.trans covered)]

theorem Affordable.foldlM {f : Nat → β → α → StateT σ Option β}
    (step : ∀ acc item, Affordable spent fun budget => f budget acc item) (items : List α) (acc : β) :
    Affordable spent fun budget => items.foldlM (f budget) acc := by
  induction items generalizing acc with
  | nil => exact .pure acc
  | cons item items ih =>
    exact .bind (step acc item) ih

namespace Ordered

variable {merge : Nat → ν → ν → StateT σ Option ν}

section
variable (each : ∀ a b, Affordable spent fun budget => merge budget a b)
include each

theorem mergeAt_affordable [DecidableEq κ]
    (key : κ) (value : ν) (entries : List (κ × ν)) :
    Affordable spent fun budget => mergeAt (merge budget) key value entries := by
  induction entries with
  | nil => exact .pure _
  | cons entry rest ih =>
    obtain ⟨present,old⟩ := entry
    exact .ite _ (fun _ => .bind (each old value) fun _ => .pure _)
      fun _ => .bind ih fun _ => .pure _

theorem mergeAll_affordable [DecidableEq κ]
    (entries more : List (κ × ν)) :
    Affordable spent fun budget => mergeAll (merge budget) entries more :=
  .foldlM (f:=fun budget out (entry : κ × ν) => mergeAt (merge budget) entry.1 entry.2 out)
    (fun acc entry => mergeAt_affordable each entry.1 entry.2 acc) more entries

end

theorem mapValues_affordable {f : Nat → ν → StateT σ Option ω}
    (each : ∀ value, Affordable spent fun budget => f budget value) (entries : List (κ × ν)) :
    Affordable spent fun budget => mapValues (f budget) entries := by
  induction entries with
  | nil => exact .pure _
  | cons entry rest ih =>
    exact .bind (each entry.2) fun _ => .bind ih fun _ => .pure _

end Ordered
end Psat.General
