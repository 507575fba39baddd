import Mathlib.Data.List.Forall2
import Mathlib.Data.Set.NAry

namespace Psat.General.Families
open Set

-- A family holds the sets that something may turn out to be.
def meets : List (Set (Set α)) → Set (Set α)
  | [] => {univ}
  | family :: rest => image2 (· ∩ ·) family (meets rest)

def joins : List (Set (Set α)) → Set (Set α)
  | [] => {∅}
  | family :: rest => image2 (· ∪ ·) family (joins rest)

@[simp] theorem meets_one (family : Set (Set α)) : meets [family] = family := by
  simp [meets]

@[simp] theorem joins_one (family : Set (Set α)) : joins [family] = family := by
  simp [joins]

theorem inter_mem_meets (inLeft : s ∈ left) (inRight : t ∈ right) : s ∩ t ∈ meets [left,right] := by
  rw [meets,meets_one]
  exact mem_image2_of_mem inLeft inRight

theorem union_mem_joins (inLeft : s ∈ left) (inRight : t ∈ right) : s ∪ t ∈ joins [left,right] := by
  rw [joins,joins_one]
  exact mem_image2_of_mem inLeft inRight

-- Every set of the one family has its complement in the other.
def Complements (family other : Set (Set α)) : Prop := ∀ s ∈ family, sᶜ ∈ other

theorem complements_meets (paired : List.Forall₂ Complements families others) : Complements
    (meets families) (joins others) := by
  induction paired with
  | nil =>
    intro s whole
    rw [joins,mem_singleton_iff,whole,compl_univ]
  | cons first _ ih =>
    rintro s ⟨t,inFirst,u,inRest,rfl⟩
    exact ⟨tᶜ,first t inFirst,uᶜ,ih u inRest,(compl_inter t u).symm⟩

theorem complements_joins (paired : List.Forall₂ Complements families others) : Complements
    (joins families) (meets others) := by
  induction paired with
  | nil =>
    intro s nothing
    rw [meets,mem_singleton_iff,nothing,compl_empty]
  | cons first _ ih =>
    rintro s ⟨t,inFirst,u,inRest,rfl⟩
    exact ⟨tᶜ,first t inFirst,uᶜ,ih u inRest,(compl_union t u).symm⟩

theorem mem_of_meets (all : ∀ family ∈ families, ∀ s ∈ family, x ∈ s) : ∀ s ∈ meets families, x ∈ s := by
  induction families with
  | nil => simp [meets]
  | cons family rest ih =>
    rintro s ⟨t,inFirst,u,inRest,rfl⟩
    exact ⟨all family List.mem_cons_self t inFirst,ih (List.forall_mem_cons.mp all).2 u inRest⟩

theorem notMem_of_meets (member : family ∈ families) (none : ∀ s ∈ family, x ∉ s) : ∀ s ∈ meets families, x ∉ s := by
  induction families with
  | nil => cases member
  | cons first rest ih =>
    rintro s ⟨t,inFirst,u,inRest,rfl⟩ ⟨inT,inU⟩
    rcases List.mem_cons.mp member with rfl | later
    · exact none t inFirst inT
    · exact ih later u inRest inU

theorem mem_of_joins (member : family ∈ families) (all : ∀ s ∈ family, x ∈ s) : ∀ s ∈ joins families, x ∈ s := by
  induction families with
  | nil => cases member
  | cons first rest ih =>
    rintro s ⟨t,inFirst,u,inRest,rfl⟩
    rcases List.mem_cons.mp member with rfl | later
    · exact .inl (all t inFirst)
    · exact .inr (ih later u inRest)

theorem notMem_of_joins (none : ∀ family ∈ families, ∀ s ∈ family, x ∉ s) : ∀ s ∈ joins families, x ∉ s := by
  induction families with
  | nil => simp [joins]
  | cons family rest ih =>
    rintro s ⟨t,inFirst,u,inRest,rfl⟩ inside
    rcases inside with inT | inU
    · exact none family List.mem_cons_self t inFirst inT
    · exact ih (List.forall_mem_cons.mp none).2 u inRest inU

end Psat.General.Families
