import Psat.Capability.Composition

namespace Psat.Capability
open List

-- Every caller named inside stands for the contract in between.
def Bound (cap : CapabilityExpr) : Prop := ∀ node ∈ nodes cap, node.subject = .bound

structure BoundLeaf (cap : CapabilityExpr) : Prop where
  bound : Bound cap
  flat : cap.kind ≠ .and ∧ cap.kind ≠ .or

theorem Bound.subject (bound : Bound cap) : cap.subject = .bound := bound cap (self_mem_nodes cap)

theorem bound_of_childless (bound : cap.subject = .bound) (leaf : cap.children = []) : Bound cap := by
  intro node member
  rcases mem_nodes.mp member with rfl | ⟨child,inside,_⟩
  · exact bound
  · rw [leaf] at inside
    cases inside

theorem boundLeaf_listing (bound : cap.subject = .bound) (leaf : cap.children = [])
    (listing : cap.kind.isListing = true) : BoundLeaf cap := by
  refine ⟨bound_of_childless bound leaf,fun kind => ?_,fun kind => ?_⟩
  · rw [kind] at listing
    cases listing
  · rw [kind] at listing
    cases listing

theorem bound_attach (bound : Bound cap) : Bound (attachConditions cap conditions) :=
  (forall_nodes _).mpr ⟨bound.subject,((forall_nodes cap).mp bound).2⟩

-- Only these combinations write their operands' subject on.
def IntersectKeeps (a b : CapabilityExpr) : Prop :=
  a.kind ≠ .unsupported ∧ b.kind ≠ .unsupported ∧ (a.kind = .conditionalUniversal ∨ b.kind = .conditionalUniversal ∨
    a.kind = .finiteSet ∧ b.kind = .finiteSet ∧ intersectQuality a.membershipQuality b.membershipQuality ≠ none ∧
      ¬(canonAddresses (a.listed.filter (· ∈ b.listed)) = [] ∧ a.listed ≠ [] ∧ b.listed ≠ []))

def UnionKeeps (a b : CapabilityExpr) : Prop :=
  a.kind = .finiteSet ∧ b.kind = .finiteSet ∧ unionQuality a.membershipQuality b.membershipQuality ≠ none ∨
    a.kind = .conditionalUniversal ∧ b.kind = .conditionalUniversal ∧ a.conditions = b.conditions

def NegateKeeps (a : CapabilityExpr) : Prop :=
  a.kind = .finiteSet ∨ a.kind = .cofiniteBlacklist ∨ a.kind = .externalCheckOnly

def Composition.KeepsSubject : Composition → Prop
  | leaf _ => True
  | intersect x y => IntersectKeeps x.value y.value
  | union x y => UnionKeeps x.value y.value
  | negate x => NegateKeeps x.value

theorem intersect_bound (leafA : BoundLeaf a) (leafB : BoundLeaf b) (keeps : IntersectKeeps a b) :
    BoundLeaf (intersect a b) := by
  obtain ⟨supportedA,supportedB,shape⟩ := keeps
  unfold intersect
  rw [if_neg supportedA,if_neg supportedB]
  by_cases anyone : a.kind = .conditionalUniversal
  · rw [if_pos anyone]
    exact ⟨bound_attach leafB.bound,leafB.flat⟩
  · rw [if_neg anyone]
    rcases shape with any | any | ⟨finiteA,finiteB,quality,common⟩
    · exact absurd any anyone
    · rw [if_pos any]
      exact ⟨bound_attach leafA.bound,leafA.flat⟩
    · rw [if_neg (by simp [finiteB]),if_neg (by simp [leafA.bound.subject,leafB.bound.subject]),finiteA,finiteB]
      unfold intersectFinite
      obtain ⟨met,is⟩ := Option.ne_none_iff_exists'.mp quality
      simp only [is]
      rw [if_neg common]
      exact boundLeaf_listing leafA.bound.subject rfl rfl

theorem union_bound (leafA : BoundLeaf a) (leafB : BoundLeaf b) (keeps : UnionKeeps a b) : BoundLeaf (union a b) := by
  have same : ¬ a.subject ≠ b.subject := by simp [leafA.bound.subject,leafB.bound.subject]
  unfold union
  rcases keeps with ⟨kindA,kindB,quality⟩ | ⟨kindA,kindB,conditions⟩
  · rw [if_neg (by simp [kindA]),if_neg (by simp [kindB]),if_neg same,kindA,kindB]
    unfold unionFinite
    obtain ⟨met,is⟩ := Option.ne_none_iff_exists'.mp quality
    simp only [is]
    exact boundLeaf_listing leafA.bound.subject rfl rfl
  · rw [if_neg (by simp [kindA]),if_neg (by simp [kindB]),if_neg same,kindA,kindB]
    rw [if_pos conditions]
    exact leafA

theorem negate_bound (leaf : BoundLeaf a) (keeps : NegateKeeps a) : BoundLeaf (negate a) := by
  rcases keeps with finite | cofinite | check
  · rw [negate_finite finite]
    exact boundLeaf_listing leaf.bound.subject rfl rfl
  · rw [negate_cofinite cofinite]
    exact boundLeaf_listing leaf.bound.subject rfl rfl
  · rw [negate_check check]
    exact boundLeaf_listing leaf.bound.subject rfl rfl

theorem intersect_keeps (leafA : BoundLeaf a) (leafB : BoundLeaf b) (bound : (intersect a b).subject = .bound) :
    IntersectKeeps a b := by
  generalize result : intersect a b = cap at bound
  have inverted := result ▸ intersected a b
  cases inverted with
  | openLeft supportedA supportedB anyone => exact ⟨supportedA,supportedB,.inl anyone⟩
  | openRight supportedA supportedB _ anyone => exact ⟨supportedA,supportedB,.inr (.inl anyone)⟩
  | boundRight _ _ _ _ root _ => cases root.symm.trans leafA.bound.subject
  | boundLeft _ _ _ _ _ root => cases root.symm.trans leafB.bound.subject
  | finite same kindA kindB =>
    refine ⟨by simp [kindA],by simp [kindB],.inr (.inr ⟨kindA,kindB,?_,?_⟩)⟩
    · intro none
      rw [intersectFinite,none] at bound
      cases bound
    · intro empty
      unfold intersectFinite at bound
      split at bound
      · cases bound
      · rw [if_pos empty] at bound
        cases bound
  | _ => cases bound

theorem union_keeps (bound : (union a b).subject = .bound) : UnionKeeps a b := by
  generalize result : union a b = cap at bound
  have inverted := result ▸ joined a b
  cases inverted with
  | finite same kindA kindB =>
    refine .inl ⟨kindA,kindB,fun none => ?_⟩
    rw [unionFinite,none] at bound
    cases bound
  | same kindA kindB conditions => exact .inr ⟨kindA,kindB,conditions⟩
  | _ => cases bound

theorem negate_keeps (leaf : BoundLeaf a) (bound : (negate a).subject = .bound) : NegateKeeps a := by
  unfold NegateKeeps
  cases kind : a.kind with
  | thresholdGroup => rw [negate_threshold kind] at bound; cases bound
  | signatureWitness => rw [negate_witness kind] at bound; cases bound
  | conditionalUniversal => rw [negate_open kind] at bound; cases bound
  | unsupported => rw [negate_unsupported kind] at bound; cases bound
  | and => exact absurd kind leaf.flat.1
  | or => exact absurd kind leaf.flat.2
  | _ => simp

namespace Composition

section
variable {x : Composition} (leaves : ∀ leaf ∈ x.leaves, BoundLeaf leaf)
include leaves

theorem value_bound (keeps : ∀ part ∈ x.parts, part.KeepsSubject) : ∀ part ∈ x.parts, BoundLeaf part.value := by
  induction x with
  | leaf cap => simpa [parts,value,Composition.leaves] using leaves
  | intersect x y ihX ihY =>
    simp only [Composition.leaves,parts,forall_mem_append,forall_mem_cons] at leaves keeps ⊢
    have left := ihX leaves.1 keeps.2.1
    have right := ihY leaves.2 keeps.2.2
    exact ⟨intersect_bound (left x x.self_mem_parts) (right y y.self_mem_parts) keeps.1,left,right⟩
  | union x y ihX ihY =>
    simp only [Composition.leaves,parts,forall_mem_append,forall_mem_cons] at leaves keeps ⊢
    have left := ihX leaves.1 keeps.2.1
    have right := ihY leaves.2 keeps.2.2
    exact ⟨union_bound (left x x.self_mem_parts) (right y y.self_mem_parts) keeps.1,left,right⟩
  | negate x ih =>
    simp only [Composition.leaves,parts,forall_mem_cons] at leaves keeps ⊢
    have inner := ih leaves keeps.2
    exact ⟨negate_bound (inner x x.self_mem_parts) keeps.1,inner⟩

theorem keeps_of_bound (bound : ∀ part ∈ x.parts, Bound part.value) : ∀ part ∈ x.parts, part.KeepsSubject := by
  induction x with
  | leaf cap => simp [parts,KeepsSubject]
  | intersect x y ihX ihY =>
    simp only [Composition.leaves,parts,forall_mem_append,forall_mem_cons] at leaves bound ⊢
    have left := ihX leaves.1 bound.2.1
    have right := ihY leaves.2 bound.2.2
    exact ⟨intersect_keeps (value_bound leaves.1 left x x.self_mem_parts)
      (value_bound leaves.2 right y y.self_mem_parts) bound.1.subject,left,right⟩
  | union x y ihX ihY =>
    simp only [Composition.leaves,parts,forall_mem_append,forall_mem_cons] at leaves bound ⊢
    exact ⟨union_keeps bound.1.subject,ihX leaves.1 bound.2.1,ihY leaves.2 bound.2.2⟩
  | negate x ih =>
    simp only [Composition.leaves,parts,forall_mem_cons] at leaves bound ⊢
    have inner := ih leaves bound.2
    exact ⟨negate_keeps (value_bound leaves inner x x.self_mem_parts) bound.1.subject,inner⟩

-- Where every step keeps the subject, a root capability is met only as a condition.
theorem bound_kept_iff : ((∀ part ∈ x.parts, Bound part.value) ↔ ∀ part ∈ x.parts, part.KeepsSubject) ∧
    ((∀ part ∈ x.parts, part.KeepsSubject) → ∀ root : CapabilityExpr, root.subject = .root →
      (∀ cap ∈ [x.value,root], cap.kind ≠ .unsupported ∧ cap.kind ≠ .conditionalUniversal) →
        Capability.intersect x.value root = foldBound root x.value ∧
          Capability.intersect root x.value = foldBound root x.value) := by
  refine ⟨⟨keeps_of_bound leaves,fun keeps part member => (value_bound leaves keeps part member).bound⟩,?_⟩
  intro keeps root isRoot plain
  have bound := (value_bound leaves keeps x x.self_mem_parts).bound.subject
  simp only [forall_mem_cons] at plain
  obtain ⟨⟨supported,closed⟩,⟨rootSupported,rootClosed⟩,_⟩ := plain
  simp [Capability.intersect,intersectCrossSubject,supported,closed,rootSupported,rootClosed,bound,isRoot]

end

def boundDenied (address : String) : CapabilityExpr := {CapabilityExpr.cofiniteBlacklist [address] with subject:=.bound}

def denylistsMet : Composition := intersect (leaf (boundDenied "0xaa")) (leaf (boundDenied "0xbb"))

-- Two denylists of the contract in between become one of the caller's own.
theorem denylists_become_root : (∀ cap ∈ denylistsMet.leaves, cap.subject = .bound) ∧
    denylistsMet.value.subject = .root ∧
    (Capability.intersect (.finiteSet ["0xaa","0xcc"]) denylistsMet.value).members = some ["0xcc"] := by
  decide +kernel

def boundKeepers (address : String) : CapabilityExpr := {CapabilityExpr.finiteSet ["0xaa",address] with subject:=.bound}

def keepersMet : Composition := intersect (leaf (boundKeepers "0xbb")) (leaf (boundKeepers "0xcc"))

theorem keepers_stay_bound : (∀ part ∈ keepersMet.parts, Bound part.value) ∧ keepersMet.value.members = some ["0xaa"] :=
    by
  refine ⟨(bound_kept_iff ?_).1.mpr ?_,by decide +kernel⟩
  · intro cap member
    rcases mem_pair.mp member with rfl | rfl
    · exact boundLeaf_listing rfl rfl rfl
    · exact boundLeaf_listing rfl rfl rfl
  · simp only [keepersMet,parts,forall_mem_append,forall_mem_cons,KeepsSubject,value]
    refine ⟨?_,by simp,by simp⟩
    unfold IntersectKeeps
    decide +kernel

end Composition

end Psat.Capability
