import Mathlib.Data.Set.BooleanAlgebra
import Mathlib.Order.CompletePartialOrder
import Psat.Capability.Algebra
import Psat.General.Families

namespace Psat.Capability
open Psat.General Psat.General.Families List

-- The caller sets a listing of members of one quality leaves possible.
def readMembers (listed : Set String) : MembershipQuality → Set (Set String)
  | .exact => {listed}
  | .lowerBound => {callers | listed ⊆ callers}
  | .upperBound => {callers | callers ⊆ listed}

-- A denylist is exact or a lower bound on who is excluded.
def readDenied (denied : Set String) : MembershipQuality → Set (Set String)
  | .exact => {deniedᶜ}
  | .lowerBound => {callers | Disjoint callers denied}
  | .upperBound => ∅

mutual

def admits : CapabilityExpr → Set (Set String)
  | ⟨fields,_,children⟩ =>
    match fields.kind with
    | .finiteSet => readMembers {address | address ∈ fields.listed} fields.membershipQuality
    | .cofiniteBlacklist => readDenied {address | address ∈ fields.denied} fields.blacklistQuality
    | .and => meets (admitsAll children)
    | .or => joins (admitsAll children)
    | _ => ∅

def admitsAll : List CapabilityExpr → List (Set (Set String))
  | [] => []
  | child :: rest => admits child :: admitsAll rest

end

theorem admitsAll_eq_map : admitsAll children = children.map admits := by
  induction children with
  | nil => rfl
  | cons child rest ih => rw [admitsAll,ih,map_cons]

theorem admits_finite (finite : cap.kind = .finiteSet) :
    admits cap = readMembers {address | address ∈ cap.listed} cap.membershipQuality := by
  cases cap
  simp only at finite
  simp [admits,finite]

theorem admits_cofinite (cofinite : cap.kind = .cofiniteBlacklist) :
    admits cap = readDenied {address | address ∈ cap.denied} cap.blacklistQuality := by
  cases cap
  simp only at cofinite
  simp [admits,cofinite]

theorem admits_and (conjunction : cap.kind = .and) : admits cap = meets (cap.children.map admits) := by
  cases cap
  simp only at conjunction
  simp [admits,conjunction,admitsAll_eq_map]

theorem admits_or (disjunction : cap.kind = .or) : admits cap = joins (cap.children.map admits) := by
  cases cap
  simp only at disjunction
  simp [admits,disjunction,admitsAll_eq_map]

theorem admits_structuralAnd (children : List CapabilityExpr) : admits (.structuralAnd children) = meets
    (children.map admits) := by
  match children with
  | [] => exact admits_and rfl
  | [child] => rw [map_cons,map_nil,meets_one]; rfl
  | first :: second :: rest => exact admits_and rfl

theorem admits_structuralOr (children : List CapabilityExpr) : admits (.structuralOr children) = joins
    (children.map admits) := by
  match children with
  | [] => exact admits_or rfl
  | [child] => rw [map_cons,map_nil,joins_one]; rfl
  | first :: second :: rest => exact admits_or rfl

theorem mem_canon_lowered (lowered : ∀ value ∈ values, Text.lower value = value) (address : String) :
    address ∈ canonAddresses values ↔ address ∈ values := by
  rw [mem_canonAddresses]
  constructor
  · rintro ⟨value,member,rfl⟩
    rw [lowered value member]
    exact member
  · intro member
    exact ⟨address,member,lowered address member⟩

-- What the two factories build: a listing of lowercase addresses.
structure Lists (cap : CapabilityExpr) : Prop where
  kind : cap.kind = .finiteSet ∨ cap.kind = .cofiniteBlacklist
  listed : ∀ address ∈ cap.listed, Text.lower address = address
  denied : ∀ address ∈ cap.denied, Text.lower address = address

theorem canon_lowered (values : List String) : ∀ value ∈ canonAddresses values, Text.lower value = value := by
  intro value member
  obtain ⟨source,_,rfl⟩ := (mem_canonAddresses values value).mp member
  exact Text.lower_lower source

theorem lists_finiteSet (members : List String) : Lists (.finiteSet members) :=
  ⟨.inl rfl,canon_lowered members,fun _ member => absurd member not_mem_nil⟩

theorem lists_cofiniteBlacklist (denied : List String) : Lists (.cofiniteBlacklist denied) :=
  ⟨.inr rfl,fun _ member => absurd member not_mem_nil,canon_lowered denied⟩

-- The quality lattices, read on the sets they stand for.
theorem readMembers_inter (met : intersectQuality qa qb = some quality) (inA : A ∈ readMembers L qa)
    (inB : B ∈ readMembers M qb) :
    A ∩ B ∈ readMembers (L ∩ M) quality := by
  cases qa <;> cases qb <;> cases met
  case exact.exact => rw [Set.mem_singleton_iff.mp inA,Set.mem_singleton_iff.mp inB]; rfl
  case exact.lowerBound => rw [Set.mem_singleton_iff.mp inA]; exact Set.inter_subset_inter_right L inB
  case lowerBound.exact => rw [Set.mem_singleton_iff.mp inB]; exact Set.inter_subset_inter_left M inA
  case lowerBound.lowerBound => exact Set.inter_subset_inter inA inB

theorem readMembers_union (met : unionQuality qa qb = some quality) (inA : A ∈ readMembers L qa)
    (inB : B ∈ readMembers M qb) :
    A ∪ B ∈ readMembers (L ∪ M) quality := by
  cases qa <;> cases qb <;> cases met
  case exact.exact => rw [Set.mem_singleton_iff.mp inA,Set.mem_singleton_iff.mp inB]; rfl
  case exact.lowerBound => rw [Set.mem_singleton_iff.mp inA]; exact Set.union_subset_union_right L inB
  case lowerBound.exact => rw [Set.mem_singleton_iff.mp inB]; exact Set.union_subset_union_left M inA
  case lowerBound.lowerBound => exact Set.union_subset_union inA inB
  case upperBound.upperBound => exact Set.union_subset_union inA inB

theorem disjoint_of_readDenied (inA : A ∈ readDenied L qa) : Disjoint A L := by
  cases qa with
  | exact => rw [Set.mem_singleton_iff.mp inA]; exact disjoint_compl_left
  | lowerBound => exact inA
  | upperBound => exact inA.elim

theorem readDenied_inter (inA : A ∈ readDenied L qa) (inB : B ∈ readDenied M qb) :
    A ∩ B ∈ readDenied (L ∪ M) (combineBlacklistQuality qa qb) := by
  have apart : Disjoint (A ∩ B) (L ∪ M) := by
    rw [Set.disjoint_union_right]
    exact ⟨(disjoint_of_readDenied inA).mono_left Set.inter_subset_left,
      (disjoint_of_readDenied inB).mono_left Set.inter_subset_right⟩
  cases qa <;> cases qb
  case exact.exact =>
    rw [Set.mem_singleton_iff.mp inA,Set.mem_singleton_iff.mp inB]
    exact Set.mem_singleton_iff.mpr (Set.compl_union L M).symm
  case upperBound.upperBound => exact inA.elim
  all_goals exact apart

theorem readDenied_union (inA : A ∈ readDenied L qa) (inB : B ∈ readDenied M qb) :
    A ∪ B ∈ readDenied (L ∩ M) (combineBlacklistQuality qa qb) := by
  have apart : Disjoint (A ∪ B) (L ∩ M) := by
    rw [Set.disjoint_union_left]
    exact ⟨(disjoint_of_readDenied inA).mono_right Set.inter_subset_left,
      (disjoint_of_readDenied inB).mono_right Set.inter_subset_right⟩
  cases qa <;> cases qb
  case exact.exact =>
    rw [Set.mem_singleton_iff.mp inA,Set.mem_singleton_iff.mp inB]
    exact Set.mem_singleton_iff.mpr (Set.compl_inter L M).symm
  case upperBound.upperBound => exact inA.elim
  all_goals exact apart

end Psat.Capability
