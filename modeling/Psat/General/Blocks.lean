import Mathlib.Order.Nat
import Mathlib.Data.List.Sort

namespace Psat.General.Blocks

-- Maximal runs of neighbours with one key.
def blocks [DecidableEq κ] (key : α → κ) : List α → List (List α)
  | [] => []
  | item :: rest =>
    match blocks key rest with
    | (next :: run) :: more =>
      if key next = key item then (item :: next :: run) :: more else [item] :: (next :: run) :: more
    | other => [item] :: other

theorem blocks_flatten [DecidableEq κ] (key : α → κ) (items : List α) : (blocks key items).flatten = items := by
  induction items with
  | nil => rfl
  | cons item rest ih =>
    unfold blocks
    split
    · rename_i next run more found
      rw [found] at ih
      split
      · simpa using ih
      · simpa using ih
    · simpa using ih

-- Runs of one key each, with the keys strictly increasing.
def Increasing [LT κ] (key : α → κ) : List (List α) → Prop
  | [] => True
  | run :: more =>
    run ≠ [] ∧ (∃ k, (∀ item ∈ run, key item = k) ∧ ∀ item ∈ more.flatten, k < key item) ∧ Increasing key more

theorem blocks_increasing [LinearOrder κ] (key : α → κ) (items : List α)
    (sorted : items.Pairwise fun a b => key a ≤ key b) : Increasing key (blocks key items) := by
  induction items with
  | nil => trivial
  | cons item rest ih =>
    obtain ⟨least,sortedRest⟩ := List.pairwise_cons.mp sorted
    have tail := ih sortedRest
    have all := blocks_flatten key rest
    unfold blocks
    split
    · rename_i next run more found
      rw [found] at tail all
      obtain ⟨_,⟨k,same,larger⟩,later⟩ := tail
      have first : key next = k := same next (by simp)
      split
      · rename_i equal
        refine ⟨by simp,⟨k,?_,larger⟩,later⟩
        intro other member
        rcases List.mem_cons.mp member with rfl | inside
        · rw [← first,equal]
        · exact same other inside
      · rename_i differs
        have below : key item < k := by
          have bound := least next (by rw [← all]; simp)
          rw [first] at bound differs
          exact lt_of_le_of_ne bound fun equal => differs equal.symm
        refine ⟨by simp,⟨key item,by simp,?_⟩,⟨by simp,⟨k,same,larger⟩,later⟩⟩
        intro other member
        rcases List.mem_append.mp member with inside | beyond
        · rw [same other inside]
          exact below
        · exact lt_trans below (larger other beyond)
    · rename_i other shape
      cases found : blocks key rest with
      | nil => exact ⟨by simp,⟨key item,by simp,by simp⟩,trivial⟩
      | cons run more =>
        cases run with
        | nil =>
          rw [found] at tail
          exact absurd rfl tail.1
        | cons next run => exact absurd found (shape next run more)

end Psat.General.Blocks
