import Psat.Capability.Algebra

namespace Psat.Capability

def CapKind.isListing (kind : CapKind) : Bool := kind = .finiteSet || kind = .cofiniteBlacklist

theorem CapKind.isListing_iff {kind : CapKind} : kind.isListing = true ↔ kind = .finiteSet ∨
    kind = .cofiniteBlacklist := by
  simp [isListing]

theorem CapKind.not_both_listing {kindA kindB : CapKind} (finite : kindA = .finiteSet → kindB = .finiteSet → False)
    (right : kindA = .finiteSet → kindB = .cofiniteBlacklist → False)
    (left : kindA = .cofiniteBlacklist → kindB = .finiteSet → False)
    (denied : kindA = .cofiniteBlacklist → kindB = .cofiniteBlacklist → False) : kindA.isListing = false ∨
    kindB.isListing = false := by
  by_contra both
  simp only [not_or,Bool.not_eq_false,isListing_iff] at both
  obtain ⟨finiteA | deniedA,finiteB | deniedB⟩ := both
  · exact finite finiteA finiteB
  · exact right finiteA deniedB
  · exact left deniedA finiteB
  · exact denied deniedA deniedB

structure Folded (a b result : CapabilityExpr) : Prop where
  kind : result.kind = .finiteSet
  children : result.children = []
  signer : result.signer = none
  conditions : result.conditions = a.conditions ++ b.conditions
  trace : result.trace = a.trace ++ b.trace

theorem intersectFinite_cases (a b : CapabilityExpr) : intersectFinite a b = .structuralAnd
    [a,b] ∨ Folded a b (intersectFinite a b) := by
  unfold intersectFinite
  cases intersectQuality a.membershipQuality b.membershipQuality with
  | none => exact .inl rfl
  | some quality =>
    simp only
    split
    · exact .inl rfl
    · exact .inr ⟨rfl,rfl,rfl,rfl,rfl⟩

theorem unionFinite_cases (a b : CapabilityExpr) : unionFinite a b = .structuralOr [a,b] ∨ Folded a b
    (unionFinite a b) := by
  unfold unionFinite
  cases unionQuality a.membershipQuality b.membershipQuality with
  | none => exact .inl rfl
  | some quality => exact .inr ⟨rfl,rfl,rfl,rfl,rfl⟩

theorem intersectFiniteBlacklist_folded (finite blacklist : CapabilityExpr) :
    Folded finite blacklist (intersectFiniteBlacklist finite blacklist) := ⟨rfl,rfl,rfl,rfl,rfl⟩

inductive Intersected (a b : CapabilityExpr) : CapabilityExpr → Prop
  | unsupported (either : a.kind = .unsupported ∨ b.kind = .unsupported) (reason : String) : Intersected a b
    (.unsupported reason)
  | openLeft (supportedA : a.kind ≠ .unsupported) (supportedB : b.kind ≠ .unsupported)
    (anyone : a.kind = .conditionalUniversal) :
    Intersected a b (attachConditions b a.conditions)
  | openRight (supportedA : a.kind ≠ .unsupported) (supportedB : b.kind ≠ .unsupported)
    (closed : a.kind ≠ .conditionalUniversal)
    (anyone : b.kind = .conditionalUniversal) : Intersected a b (attachConditions a b.conditions)
  | boundRight (supportedA : a.kind ≠ .unsupported) (supportedB : b.kind ≠ .unsupported)
    (closedA : a.kind ≠ .conditionalUniversal)
    (closedB : b.kind ≠ .conditionalUniversal) (rootA : a.subject = .root) (boundB : b.subject = .bound) :
    Intersected a b (foldBound a b)
  | boundLeft (supportedA : a.kind ≠ .unsupported) (supportedB : b.kind ≠ .unsupported)
    (closedA : a.kind ≠ .conditionalUniversal)
    (closedB : b.kind ≠ .conditionalUniversal) (boundA : a.subject = .bound) (rootB : b.subject = .root) :
    Intersected a b (foldBound b a)
  | finite (same : a.subject = b.subject) (kindA : a.kind = .finiteSet) (kindB : b.kind = .finiteSet) :
    Intersected a b (intersectFinite a b)
  | subtractRight (same : a.subject = b.subject) (kindA : a.kind = .finiteSet) (kindB : b.kind = .cofiniteBlacklist) :
    Intersected a b (intersectFiniteBlacklist a b)
  | subtractLeft (same : a.subject = b.subject) (kindA : a.kind = .cofiniteBlacklist) (kindB : b.kind = .finiteSet) :
    Intersected a b (intersectFiniteBlacklist b a)
  | denied (same : a.subject = b.subject) (kindA : a.kind = .cofiniteBlacklist) (kindB : b.kind = .cofiniteBlacklist) :
    Intersected a b (combineBlacklists (canonAddresses (a.denied ++ b.denied)) a b)
  | structural (supportedA : a.kind ≠ .unsupported) (supportedB : b.kind ≠ .unsupported) (same : a.subject = b.subject)
    (closedA : a.kind ≠ .conditionalUniversal) (closedB : b.kind ≠ .conditionalUniversal)
    (other : a.kind.isListing = false ∨ b.kind.isListing = false) : Intersected a b (.structuralAnd [a,b])

theorem intersected (a b : CapabilityExpr) : Intersected a b (intersect a b) := by
  fun_cases intersect a b with
  | case1 unsupported => exact .unsupported (.inl unsupported) _
  | case2 _ unsupported => exact .unsupported (.inr unsupported) _
  | case3 supportedA supportedB anyone => exact .openLeft supportedA supportedB anyone
  | case4 supportedA supportedB closedA anyone => exact .openRight supportedA supportedB closedA anyone
  | case5 supportedA supportedB closedA closedB differs =>
    unfold intersectCrossSubject
    cases subjectA : a.subject <;> cases subjectB : b.subject
    case root.bound => exact .boundRight supportedA supportedB closedA closedB subjectA subjectB
    case bound.root => exact .boundLeft supportedA supportedB closedA closedB subjectA subjectB
    all_goals exact absurd (subjectA.trans subjectB.symm) differs
  | case6 _ _ _ _ agrees kindB kindA => exact .finite (not_not.mp agrees) kindA kindB
  | case7 _ _ _ _ agrees kindB kindA => exact .subtractRight (not_not.mp agrees) kindA kindB
  | case8 _ _ _ _ agrees kindB kindA => exact .subtractLeft (not_not.mp agrees) kindA kindB
  | case9 _ _ _ _ agrees kindB kindA => exact .denied (not_not.mp agrees) kindA kindB
  | case10 supportedA supportedB closedA closedB agrees notFinite notRight notLeft notDenied =>
    exact .structural supportedA supportedB (not_not.mp agrees) closedA closedB
      (CapKind.not_both_listing notFinite notRight notLeft notDenied)

inductive Joined (a b : CapabilityExpr) : CapabilityExpr → Prop
  | finite (same : a.subject = b.subject) (kindA : a.kind = .finiteSet) (kindB : b.kind = .finiteSet) :
    Joined a b (unionFinite a b)
  | addLeft (same : a.subject = b.subject) (kindA : a.kind = .finiteSet) (kindB : b.kind = .cofiniteBlacklist) :
    Joined a b (unionFiniteBlacklist a b)
  | addRight (same : a.subject = b.subject) (kindA : a.kind = .cofiniteBlacklist) (kindB : b.kind = .finiteSet) :
    Joined a b (unionFiniteBlacklist b a)
  | denied (same : a.subject = b.subject) (kindA : a.kind = .cofiniteBlacklist) (kindB : b.kind = .cofiniteBlacklist) :
    Joined a b (combineBlacklists (canonAddresses (a.denied.filter (· ∈ b.denied))) a b)
  | same (kindA : a.kind = .conditionalUniversal) (kindB : b.kind = .conditionalUniversal)
    (conditions : a.conditions = b.conditions) :
    Joined a b a
  | structural (other : a.kind.isListing = false ∨ b.kind.isListing = false ∨ a.subject ≠ b.subject) : Joined a b
    (.structuralOr [a,b])

theorem joined (a b : CapabilityExpr) : Joined a b (union a b) := by
  fun_cases union a b with
  | case1 unsupported => exact .structural (.inl (by rw [unsupported]; rfl))
  | case2 _ unsupported => exact .structural (.inr (.inl (by rw [unsupported]; rfl)))
  | case3 _ _ differs => exact .structural (.inr (.inr differs))
  | case4 _ _ agrees kindB kindA => exact .finite (not_not.mp agrees) kindA kindB
  | case5 _ _ agrees kindB kindA => exact .denied (not_not.mp agrees) kindA kindB
  | case6 _ _ agrees kindB kindA => exact .addLeft (not_not.mp agrees) kindA kindB
  | case7 _ _ agrees kindB kindA => exact .addRight (not_not.mp agrees) kindA kindB
  | case8 _ _ _ kindB kindA conditions => exact .same kindA kindB conditions
  | case9 _ _ _ _ kindA _ => exact .structural (.inl (by rw [kindA]; rfl))
  | case10 _ _ _ notFinite notDenied notLeft notRight _ =>
    refine .structural ?_
    cases CapKind.not_both_listing notFinite notLeft notRight notDenied with
    | inl other => exact .inl other
    | inr other => exact .inr (.inl other)

-- What the evaluator builds: the combinators over resolved leaves.
inductive Composition
  | leaf (cap : CapabilityExpr)
  | intersect (x y : Composition)
  | union (x y : Composition)
  | negate (x : Composition)

namespace Composition

def value : Composition → CapabilityExpr
  | leaf cap => cap
  | intersect x y => Capability.intersect x.value y.value
  | union x y => Capability.union x.value y.value
  | negate x => Capability.negate x.value

def leaves : Composition → List CapabilityExpr
  | leaf cap => [cap]
  | intersect x y => x.leaves ++ y.leaves
  | union x y => x.leaves ++ y.leaves
  | negate x => x.leaves

def parts : Composition → List Composition
  | leaf cap => [leaf cap]
  | intersect x y => intersect x y :: (x.parts ++ y.parts)
  | union x y => union x y :: (x.parts ++ y.parts)
  | negate x => negate x :: x.parts

theorem self_mem_parts (x : Composition) : x ∈ x.parts := by
  cases x <;> exact List.mem_cons_self

end Composition

end Psat.Capability
