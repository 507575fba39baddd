import Mathlib.Data.List.Forall2

namespace Psat.General.Paired

theorem left_partner (paired : List.Forall₂ related xs ys) (member : x ∈ xs) : ∃ y ∈ ys, related x y := by
  induction paired with
  | nil => cases member
  | cons here _ ih =>
    rcases List.mem_cons.mp member with rfl | later
    · exact ⟨_,by simp,here⟩
    · obtain ⟨y,inside,holds⟩ := ih later
      exact ⟨y,List.mem_cons_of_mem _ inside,holds⟩

theorem right_partner (paired : List.Forall₂ related xs ys) (member : y ∈ ys) :
    ∃ x ∈ xs, related x y := left_partner paired.flip member

end Psat.General.Paired
