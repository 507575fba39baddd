import Mathlib.Data.Set.Finite.List
import Psat.Surface.Shade

namespace Psat.Surface
open Psat.Capability

-- Callers are unboundedly many, so a denylist differs from an allowlist.
abbrev Caller := String

def AllButFinitely (callers : Set Caller) : Prop := callersᶜ.Finite

theorem AllButFinitely.univ : AllButFinitely Set.univ := by
  simp [AllButFinitely]

theorem AllButFinitely.mono (all : AllButFinitely s) (sub : s ⊆ t) : AllButFinitely t :=
  Set.Finite.subset all (Set.compl_subset_compl.mpr sub)

theorem allButFinitely_inter : AllButFinitely (s ∩ t) ↔ AllButFinitely s ∧ AllButFinitely t := by
  constructor
  · exact fun both => ⟨both.mono Set.inter_subset_left,both.mono Set.inter_subset_right⟩
  · rintro ⟨left,right⟩
    rw [AllButFinitely,Set.compl_inter]
    exact Set.Finite.union left right

theorem not_allButFinitely_of_finite (few : s.Finite) : ¬AllButFinitely s := by
  intro all
  have whole : (Set.univ : Set Caller).Finite := by
    rw [← Set.union_compl_self s]
    exact few.union all
  exact Set.infinite_univ whole

-- What unsettled leaves stand for: any set of callers, chosen for each place.
abbrev Given := CapDict → List Nat → Set Caller

mutual
@[simp] def denoted (given : Given) (place : List Nat) : CapDict → Set Caller
  | ⟨fields,signer,children⟩ =>
    match fields.kind with
    | .finiteSet => {a | a ∈ (fields.members.getD []).map Text.lower}
    | .cofiniteBlacklist => {a | a ∉ (fields.blacklist.getD []).map Text.lower}
    | .conditionalUniversal => Set.univ
    | .and => denotedAnd given place 0 children
    | .or => denotedOr given place 0 children
    | _ => given ⟨fields,signer,children⟩ place
def denotedAnd (given : Given) (place : List Nat) (index : Nat) : List CapDict → Set Caller
  | [] => Set.univ
  | child :: rest => denoted given (index :: place) child ∩ denotedAnd given place (index + 1) rest
def denotedOr (given : Given) (place : List Nat) (index : Nat) : List CapDict → Set Caller
  | [] => ∅
  | child :: rest => denoted given (index :: place) child ∪ denotedOr given place (index + 1) rest
end

-- Nesting of AND and OR over given leaves; every such node has a child.
inductive BuiltFrom (leaf : CapDict → Prop) : CapDict → Prop
  | leaf {cap : CapDict} : cap.kind ≠ .and → cap.kind ≠ .or → leaf cap → BuiltFrom leaf cap
  | and {cap : CapDict} : cap.kind = .and → cap.children ≠ [] → (∀ child ∈ cap.children, BuiltFrom leaf child) →
    BuiltFrom leaf cap
  | or {cap : CapDict} : cap.kind = .or → cap.children ≠ [] → (∀ child ∈ cap.children, BuiltFrom leaf child) →
    BuiltFrom leaf cap

theorem denoted_finiteSet (kind : cap.kind = .finiteSet) :
    denoted given place cap = {a | a ∈ (cap.members.getD []).map Text.lower} := by
  cases cap
  simp_all [denoted]

theorem denoted_cofinite (kind : cap.kind = .cofiniteBlacklist) :
    denoted given place cap = {a | a ∉ (cap.blacklist.getD []).map Text.lower} := by
  cases cap
  simp_all [denoted]

theorem denoted_universal (kind : cap.kind = .conditionalUniversal) : denoted given place cap = Set.univ := by
  cases cap
  simp_all [denoted]

theorem denoted_and (kind : cap.kind = .and) : denoted given place cap = denotedAnd given place 0 cap.children := by
  cases cap
  simp_all [denoted]

theorem denoted_or (kind : cap.kind = .or) : denoted given place cap = denotedOr given place 0 cap.children := by
  cases cap
  simp_all [denoted]

theorem denoted_given (kind : cap.kind = .unsupported ∨ cap.kind = .externalCheckOnly) :
    denoted given place cap = given cap place := by
  obtain ⟨fields,signer,children⟩ := cap
  simp only at kind
  unfold denoted
  rcases kind with kind | kind <;> simp only [kind]

theorem finiteSet_few (kind : cap.kind = .finiteSet) : (denoted given place cap).Finite := by
  rw [denoted_finiteSet kind]
  exact List.finite_toSet _

theorem cofinite_most (kind : cap.kind = .cofiniteBlacklist) : AllButFinitely (denoted given place cap) := by
  rw [denoted_cofinite kind,AllButFinitely]
  have same : {a | a ∉ (cap.blacklist.getD []).map Text.lower}ᶜ = {a | a ∈ (cap.blacklist.getD []).map Text.lower} := by
    ext a
    simp
  rw [same]
  exact List.finite_toSet _

theorem BuiltFrom.fresh {leaf : CapDict → Prop} (p : Projector) (built : BuiltFrom leaf cap) :
    (shade p cap).identity = false := by
  induction built with
  | @leaf cap notAnd notOr _ =>
    obtain ⟨fields,signer,children⟩ := cap
    unfold shade
    cases kind : fields.kind <;> simp_all [Shade.rows] <;> split <;> rfl
  | @and cap kind some_child _ _ =>
    obtain ⟨first,rest,split⟩ := List.exists_cons_of_ne_nil some_child
    rw [shade_and kind,split]
    exact Shade.withhold_identity (Shade.append_identity (shadeAnd_identity (Shade.and_identity _ _) _ rest))
  | @or cap kind some_child _ ih =>
    obtain ⟨first,rest,split⟩ := List.exists_cons_of_ne_nil some_child
    rw [shade_or kind,split]
    exact Shade.append_identity (shadeOr_identity (ih first (by simp [split])) rest)

def allowed (members : List String) : CapDict :=
  {kind:=.finiteSet,members:=some members,membershipQuality:=some .exact,confidence:=some .enumerable}

def anyone : CapDict := {kind:=.conditionalUniversal}

def allOf (children : List CapDict) : CapDict := {kind:=.and,children}

def anyOf (children : List CapDict) : CapDict := {kind:=.or,children}

end Psat.Surface
