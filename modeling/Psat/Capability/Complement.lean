import Psat.Capability.Admits

namespace Psat.Capability
open Psat.General Psat.General.Families List CapabilityExpr

-- Any nesting of ANDs and ORs over finite sets and denylists.
inductive SetTree : CapabilityExpr → Prop
  | listing (lists : Lists cap) (leaf : cap.children = []) : SetTree cap
  | and (kind : cap.kind = .and) (under : ∀ child ∈ cap.children, SetTree child) : SetTree cap
  | or (kind : cap.kind = .or) (under : ∀ child ∈ cap.children, SetTree child) : SetTree cap

-- A set with members of which some may not hold.
def AtMost (cap : ExprFields) : Prop := cap.kind = .finiteSet ∧ cap.membershipQuality = .upperBound ∧ cap.listed ≠ []

theorem canon_once (lowered : ∀ value ∈ values, Text.lower value = value) :
    {address | address ∈ canonAddresses values} = {address | address ∈ values} := by
  ext address
  exact mem_canon_lowered lowered address

theorem admits_complementFinite (lists : Lists a) : admits (complementFinite a) =
    readDenied {address | address ∈ a.listed} (if a.membershipQuality ≠ .exact then .lowerBound else .exact) := by
  rw [admits_cofinite rfl,←canon_once lists.listed]
  rfl

theorem admits_complementBlacklist (lists : Lists a) : admits (complementBlacklist a) =
    readMembers {address | address ∈ a.denied} (if a.blacklistQuality = .exact then .exact else .lowerBound) := by
  rw [admits_finite rfl,←canon_once lists.denied]
  rfl

theorem complementFinite_iff (finite : a.kind = .finiteSet) (lists : Lists a) :
    Complements (admits a) (admits (complementFinite a)) ↔ ¬ AtMost a.toExprFields := by
  rw [admits_finite finite,admits_complementFinite lists]
  cases quality : a.membershipQuality with
  | exact =>
    refine iff_of_true (fun callers inside => ?_) fun atMost => absurd (quality.symm.trans atMost.2.1) nofun
    rw [Set.mem_singleton_iff.mp inside]
    rfl
  | lowerBound =>
    refine iff_of_true (fun callers inside => ?_) fun atMost => absurd (quality.symm.trans atMost.2.1) nofun
    exact Set.disjoint_compl_left_iff_subset.mpr inside
  | upperBound =>
    constructor
    · rintro sound ⟨_,_,some⟩
      -- Nobody may hold the set, and then everybody passes its negation.
      have everyone := sound ∅ (Set.empty_subset _)
      rw [Set.compl_empty] at everyone
      obtain ⟨address,member⟩ := exists_mem_of_ne_nil _ some
      exact Set.disjoint_left.mp everyone (Set.mem_univ address) member
    · intro stated callers _
      have none : a.listed = [] := by
        by_contra some
        exact stated ⟨finite,quality,some⟩
      simp [readDenied,none]

theorem complementBlacklist_sound (cofinite : a.kind = .cofiniteBlacklist) (lists : Lists a) :
    Complements (admits a) (admits (complementBlacklist a)) := by
  rw [admits_cofinite cofinite,admits_complementBlacklist lists]
  intro callers inside
  cases quality : a.blacklistQuality with
  | exact =>
    rw [quality] at inside
    rw [Set.mem_singleton_iff.mp inside,compl_compl]
    rfl
  | _ => exact Set.subset_compl_iff_disjoint_left.mpr (disjoint_of_readDenied inside)

theorem negate_listing_iff (lists : Lists a) : Complements (admits a) (admits (negate a)) ↔ ¬ AtMost a.toExprFields :=
    by
  cases lists.kind with
  | inl finite =>
    rw [negate_finite finite]
    exact complementFinite_iff finite lists
  | inr cofinite =>
    rw [negate_cofinite cofinite]
    exact iff_of_true (complementBlacklist_sound cofinite lists) fun atMost => absurd
      (cofinite.symm.trans atMost.1) nofun

theorem paired_children {children : List CapabilityExpr}
    (each : ∀ child ∈ children, Complements (admits child) (admits (negate child))) :
    List.Forall₂ Complements (children.map admits) ((children.map negate).map admits) := by
  rw [map_map,forall₂_map_left_iff,forall₂_map_right_iff,List.forall₂_same]
  exact each

theorem negate_sound (tree : SetTree a) (listed : ∀ node ∈ nodes a, ¬ AtMost node.toExprFields) :
    Complements (admits a) (admits (negate a)) := by
  induction tree with
  | listing lists _ => exact (negate_listing_iff lists).mpr (listed _ (self_mem_nodes _))
  | and kind _ ih =>
    rw [admits_and kind,negate_and kind,admits_structuralOr]
    apply complements_meets
    exact paired_children fun child member => ih child member fun node under => listed node
      (mem_nodes.mpr (.inr ⟨child,member,under⟩))
  | or kind _ ih =>
    rw [admits_or kind,negate_or kind,admits_structuralAnd]
    apply complements_joins
    exact paired_children fun child member => ih child member fun node under => listed node
      (mem_nodes.mpr (.inr ⟨child,member,under⟩))

theorem SetTree.node (tree : SetTree a) : ∀ node ∈ nodes a, SetTree node := by
  induction tree with
  | listing lists leaf =>
    intro node member
    rcases mem_nodes.mp member with rfl | ⟨child,under,_⟩
    · exact .listing lists leaf
    · rw [leaf] at under
      exact absurd under not_mem_nil
  | and kind under ih =>
    intro node member
    rcases mem_nodes.mp member with rfl | ⟨child,inside,below⟩
    · exact .and kind under
    · exact ih child inside node below
  | or kind under ih =>
    intro node member
    rcases mem_nodes.mp member with rfl | ⟨child,inside,below⟩
    · exact .or kind under
    · exact ih child inside node below

theorem negate_admits_iff (tree : SetTree a) :
    (∀ node ∈ nodes a, ∀ callers ∈ admits node, callersᶜ ∈ admits (negate node)) ↔
    ∀ node ∈ nodes a, ¬ AtMost node.toExprFields := by
  constructor
  · intro sound node member atMost
    cases tree.node node member with
    | listing lists _ => exact (negate_listing_iff lists).mp (sound node member) atMost
    | and kind _ => exact absurd (kind.symm.trans atMost.1) nofun
    | or kind _ => exact absurd (kind.symm.trans atMost.1) nofun
  · intro listed node member
    exact negate_sound (tree.node node member) fun deeper below => listed deeper (nodes_trans member below)

-- At most the keeper passes, so possibly nobody does.
def ceiling : CapabilityExpr := {finiteSet ["0xaa"] with membershipQuality:=.upperBound}

theorem ceiling_negated_below : (∅ : Set String) ∈ admits ceiling ∧ (∅ : Set String)ᶜ ∉ admits (negate ceiling) := by
  have member : Text.lower "0xaa" ∈ canonAddresses ["0xaa"] := (mem_canonAddresses _ _).mpr
    ⟨"0xaa",mem_singleton_self _,rfl⟩
  constructor
  · rw [admits_finite rfl]
    exact Set.empty_subset _
  · rw [negate_finite rfl,admits_cofinite rfl,Set.compl_empty]
    intro everyone
    exact Set.disjoint_left.mp (disjoint_of_readDenied everyone) (Set.mem_univ _)
      ((mem_canon_lowered (canon_lowered _) _).mpr member)

-- Known keepers who are not denied, or the exact guard list.
def gated : CapabilityExpr :=
  .structuralOr [.structuralAnd [{finiteSet ["0xaa"] with membershipQuality:=.lowerBound},.cofiniteBlacklist ["0xbb"]],
    .finiteSet ["0xcc"]]

theorem negate_admits_iff_gated : SetTree gated ∧ ∀ node ∈ nodes gated, ∀ callers ∈ admits node, callersᶜ ∈ admits
    (negate node) := by
  have keepers : SetTree {finiteSet ["0xaa"] with membershipQuality:=.lowerBound} :=
    .listing ⟨.inl rfl,canon_lowered _,fun _ member => absurd member not_mem_nil⟩ rfl
  have tree : SetTree gated := by
    refine .or rfl fun child member => ?_
    rcases mem_pair.mp member with rfl | rfl
    · refine .and rfl fun child member => ?_
      rcases mem_pair.mp member with rfl | rfl
      · exact keepers
      · exact .listing (lists_cofiniteBlacklist _) rfl
    · exact .listing (lists_finiteSet _) rfl
  refine ⟨tree,(negate_admits_iff tree).mpr fun node member atMost => ?_⟩
  have quality : ∀ node ∈ nodes gated, node.membershipQuality ≠ .upperBound := by
    simp [gated,structuralOr,structuralAnd,nodes,nodesAll,finiteSet,
      cofiniteBlacklist]
  exact quality node member atMost.2.1

end Psat.Capability
