import Psat.Capability.Composition
import Psat.Evaluator.Trees
import Psat.Surface.PublicPaths

namespace Psat.Evaluator
open Psat.Capability Psat.Surface List
open Shade (and_ empty meet or_)

def projectsPublic (p : Projector) (cap : CapabilityExpr) : Bool :=
  (projectCapabilitySurface p (capabilityToDict cap)).authorityPublic

def showsCallers (kind : CapKind) : Bool := kind = .finiteSet || kind = .thresholdGroup || kind = .signatureWitness

theorem shade_callers_count (callers : showsCallers cap.kind) : (shade p cap).count = 0 := by
  have read : isReachNotDetermined cap = false := by
    refine not_reach_of_kind ?_
    intro check
    rw [check] at callers
    cases callers
  obtain ⟨fields,signer,children⟩ := cap
  rw [shade.eq_def]
  simp only [read,Bool.false_eq_true,↓reduceIte]
  generalize same : fields.kind = kind at callers
  cases kind with
  | finiteSet => rfl
  | thresholdGroup => rfl
  | signatureWitness => rfl
  | _ => cases callers

theorem append_count (s : Shade) (raw : List Condition) : (s.append raw).count = s.count := by
  unfold Shade.append
  split
  · rfl
  · rfl

theorem withhold_count (blocked : Bool) (s : Shade) : (s.withhold blocked).count = if blocked then 0 else s.count := by
  unfold Shade.withhold
  cases blocked with
  | false => rfl
  | true =>
    by_cases none : s.count = 0
    · simp [none]
    · have some : 0 < s.count := Nat.pos_of_ne_zero none
      simp [some]

theorem shade_and_count (kind : cap.kind = .and) : (shade p cap).count =
    if (shadeAnd p .empty false cap.children).2 then 0 else (shadeAnd p .empty false cap.children).1.count := by
  rw [shade_and kind,withhold_count,append_count]

theorem shade_count_congr (kind : cap.kind = other.kind) (children : cap.children = other.children) :
    (shade p cap).count = (shade p other).count := by
  cases same : other.kind with
  | cofiniteBlacklist => rw [shade_path (.inl (kind.trans same)),shade_path (.inl same)]
  | conditionalUniversal => rw [shade_path (.inr (kind.trans same)),shade_path (.inr same)]
  | externalCheckOnly => rw [shade_unread (.inr (kind.trans same)),shade_unread (.inr same)]
  | unsupported => rw [shade_unread (.inl (kind.trans same)),shade_unread (.inl same)]
  | and => rw [shade_and_count (kind.trans same),shade_and_count same,children]
  | or => rw [shade_or (kind.trans same),shade_or same,append_count,append_count,children]
  | _ => rw [shade_callers_count (by simp [kind,same,showsCallers]),shade_callers_count (by simp [same,showsCallers])]

structure Shut (p : Projector) (cap : CapDict) : Prop where
  pathless : (shade p cap).count = 0
  stands : (shade p cap).valid = true ∨ (shade p cap).nobody = true ∨
    (p.earnedPublic = true ∧ isRootAuthorityBlocker cap = true)

section Shade
variable {s t : Shade}

theorem and_nobody (empty : s.nobody = true ∨ t.nobody = true) : (s.and_ t).nobody = true ∧ (s.and_ t).count = 0 := by
  have either : (s.nobody || t.nobody) = true := by
    cases empty with
    | inl left => rw [left,Bool.true_or]
    | inr right => rw [right,Bool.or_true]
  unfold and_
  rw [if_pos either]
  exact ⟨rfl,rfl⟩

theorem and_count_le (s t : Shade) : (s.and_ t).count ≤ (s.meet t).count := by
  unfold and_
  split
  · exact Nat.zero_le _
  · exact Nat.le_refl _

theorem meet_pathless_left (valid : s.valid = true) (pathless : s.count = 0) : (s.meet t).count = 0 := by
  unfold meet
  cases other : t.valid with
  | false => simp [valid,pathless]
  | true => simp [valid,pathless]

theorem meet_pathless_right (valid : t.valid = true) (pathless : t.count = 0) : (s.meet t).count = 0 := by
  unfold meet
  cases other : s.valid with
  | false => simp [valid,pathless]
  | true => simp [valid,pathless]

theorem and_pathless_left (valid : s.valid = true) (pathless : s.count = 0) : (s.and_ t).count = 0 :=
  Nat.le_zero.mp (meet_pathless_left valid pathless ▸ and_count_le s t)

theorem empty_and_keys (s : Shade) : (empty.and_ s).keys = s.keys := by
  have blank : empty.valid = false := rfl
  have met : (empty.meet s).keys = s.keys := by
    cases valid : s.valid with
    | true => simp [meet,blank,valid]
    | false =>
      have bare : s.keys = [] := by
        simp only [Shade.valid,Bool.or_eq_false_iff,Bool.not_eq_false',List.isEmpty_iff] at valid
        exact valid.1
      simp [meet,blank,valid,bare]
  unfold and_
  split
  · exact met
  · exact met

theorem empty_and_pathless (pathless : s.count = 0) : (empty.and_ s).count = 0 := by
  refine Nat.le_zero.mp (Nat.le_trans (and_count_le _ _) (Nat.le_of_eq ?_))
  unfold meet
  split
  · rfl
  · split
    · rfl
    · simp [empty,Shade.valid,pathless]

theorem valid_iff_keys (pathless : s.count = 0) : s.valid = !s.keys.isEmpty := by simp [Shade.valid,pathless]

end Shade

theorem and_count_of_blocked (kind : pair.kind = .and) (blocked : (shadeAnd p empty false pair.children).2 = true) :
    (shade p pair).count = 0 := by
  rw [shade_and_count kind,if_pos blocked]

theorem and_count_of_pathless (kind : pair.kind = .and)
    (pathless : (shadeAnd p empty false pair.children).1.count = 0) :
    (shade p pair).count = 0 := by
  rw [shade_and_count kind,pathless]
  split
  · rfl
  · rfl

theorem Shut.first (closed : Shut p barred) (kind : pair.kind = .and) (children : pair.children = [barred,other]) :
    (shade p pair).count = 0 := by
  obtain ⟨pathless,stands⟩ := closed
  cases valid : (shade p barred).valid with
  | true =>
    refine and_count_of_pathless kind ?_
    rw [children]
    refine and_pathless_left ?_ (empty_and_pathless pathless)
    rw [valid_iff_keys (empty_and_pathless pathless),empty_and_keys,← valid_iff_keys pathless]
    exact valid
  | false =>
    rcases stands with shows | empty | ⟨earned,blocker⟩
    · rw [valid] at shows
      cases shows
    · refine and_count_of_pathless kind ?_
      rw [children]
      exact (and_nobody (.inl (and_nobody (.inr empty)).1)).2
    · refine and_count_of_blocked kind ?_
      rw [children]
      simp [shadeAnd,earned,valid,blocker]

theorem Shut.second (closed : Shut p barred) (kind : pair.kind = .and) (children : pair.children = [other,barred]) :
    (shade p pair).count = 0 := by
  obtain ⟨pathless,stands⟩ := closed
  cases valid : (shade p barred).valid with
  | true =>
    refine and_count_of_pathless kind ?_
    rw [children]
    exact Nat.le_zero.mp (meet_pathless_right valid pathless ▸ and_count_le _ _)
  | false =>
    rcases stands with shows | empty | ⟨earned,blocker⟩
    · rw [valid] at shows
      cases shows
    · refine and_count_of_pathless kind ?_
      rw [children]
      exact (and_nobody (.inr empty)).2
    · refine and_count_of_blocked kind ?_
      rw [children]
      simp [shadeAnd,earned,valid,blocker]

def Barred (s : Shade) : Prop := s.nobody = true ∧ s.count = 0

theorem shadeAnd_barred (barred : Barred s ∨ ∃ child ∈ children, Barred (shade p child)) :
    Barred (shadeAnd p s blocked children).1 := by
  induction children generalizing s blocked with
  | nil =>
    cases barred with
    | inl here => exact here
    | inr below =>
      obtain ⟨child,member,_⟩ := below
      cases member
  | cons first rest ih =>
    refine ih ?_
    rcases barred with here | ⟨child,member,below⟩
    · exact .inl (and_nobody (.inl here.1))
    · cases member with
      | head => exact .inl (and_nobody (.inr below.1))
      | tail _ later => exact .inr ⟨child,later,below⟩

theorem shadeOr_barred (first : Barred s) (rest : ∀ child ∈ children, Barred (shade p child)) :
    Barred (shadeOr p s children) := by
  induction children generalizing s with
  | nil => exact first
  | cons child others ih =>
    have here : Barred (shade p child) := rest child mem_cons_self
    refine ih ?_ (forall_mem_cons.mp rest).2
    unfold or_
    split
    · exact here
    · exact ⟨by simp [first.1,here.1],by simp [first.2,here.2]⟩

theorem Barred.append (barred : Barred s) (raw : List Condition) : Barred (s.append raw) := by
  unfold Shade.append
  split
  · exact barred
  · exact barred

theorem Barred.withhold (barred : Barred s) (blocked : Bool) : Barred (s.withhold blocked) := by
  unfold Shade.withhold
  split
  · exact ⟨barred.1,rfl⟩
  · exact barred

theorem resolvedEmpty_kind (resolved : isResolvedEmptyCapability cap = true) :
    cap.kind = .finiteSet ∨ cap.kind = .and ∨ (cap.kind = .or ∧ cap.children ≠ []) := by
  obtain ⟨fields,signer,children⟩ := cap
  rw [isResolvedEmptyCapability.eq_def] at resolved
  simp only at resolved ⊢
  split at resolved
  · rename_i kind
    exact .inl kind
  · rename_i kind
    exact .inr (.inl kind)
  · rename_i kind
    rw [Bool.and_eq_true] at resolved
    refine .inr (.inr ⟨kind,?_⟩)
    intro bare
    rw [bare] at resolved
    cases resolved.1
  · cases resolved

theorem resolvedEmpty_barred (p : Projector) (resolved : isResolvedEmptyCapability cap = true) :
    Barred (shade p cap) := by
  induction cap using CapDict.tree_induction with
  | node cap ih =>
    rcases resolvedEmpty_kind resolved with kind | kind | ⟨kind,some_child⟩
    · rw [shade_finiteSet kind]
      rw [resolvedEmpty_finiteSet kind] at resolved
      exact ⟨resolved,rfl⟩
    · rw [resolvedEmpty_and kind,any_eq_true] at resolved
      obtain ⟨child,member,empty⟩ := resolved
      rw [shade_and kind]
      exact ((shadeAnd_barred (.inr ⟨child,member,ih child member empty⟩)).append _).withhold _
    · rw [resolvedEmpty_or kind some_child,all_eq_true] at resolved
      rw [shade_or kind]
      refine Barred.append ?_ _
      cases children : cap.children with
      | nil => exact absurd children some_child
      | cons first rest =>
        rw [children] at ih resolved
        rw [shadeOr_first]
        exact shadeOr_barred (ih first mem_cons_self (resolved first mem_cons_self)) fun child member =>
          ih child (mem_cons_of_mem _ member) (resolved child (mem_cons_of_mem _ member))

-- A capability that stays closed beside any sibling.
structure Guards (p : Projector) (cap : CapabilityExpr) : Prop where
  root : cap.subject = .root
  stands : (projectCapabilitySurface p (capabilityToDict cap)).principalRows ≠ [] ∨
    isResolvedEmptyCapability (capabilityToDict cap) = true ∨
    (p.earnedPublic = true ∧ (projectCapabilitySurface p (capabilityToDict cap)).notDeterminedReason = none ∧
        isRootAuthorityBlocker (capabilityToDict cap) = true)

theorem projectsPublic_iff (opened : projectsPublic p cap = true) : 0 < (shade p (capabilityToDict cap)).count := by
  have many : 0 < (projectCapabilitySurface p (capabilityToDict cap)).publicPathCount := decide_eq_true_iff.mp opened
  cases surface_cases p (capabilityToDict cap) with
  | inl answers => exact answers.paths ▸ many
  | inr stopped =>
    rw [stopped.2.1] at many
    cases many

theorem not_public_of_pathless (pathless : (shade p (capabilityToDict cap)).count = 0) : projectsPublic p cap = false :=
    by
  cases opened : projectsPublic p cap with
  | false => rfl
  | true =>
    have many := projectsPublic_iff opened
    rw [pathless] at many
    cases many

theorem Guards.shut (guards : Guards p cap) (closed : projectsPublic p cap = false) : Shut p (capabilityToDict cap) :=
    by
  have counted : Answers p (capabilityToDict cap) (projectCapabilitySurface p (capabilityToDict cap)) →
    (shade p (capabilityToDict cap)).count = 0 := by
    intro answers
    have none : ¬ 0 < (projectCapabilitySurface p (capabilityToDict cap)).publicPathCount :=
      decide_eq_false_iff_not.mp closed
    rw [answers.paths] at none
    exact Nat.eq_zero_of_not_pos none
  rcases guards.stands with rows | empty | ⟨earned,finished,blocker⟩
  · cases surface_cases p (capabilityToDict cap) with
    | inl answers =>
      refine ⟨counted answers,.inl ?_⟩
      rw [valid_iff_keys (counted answers)]
      have listed := congrArg List.length answers.listed
      rw [length_map,length_map] at listed
      have several : (shade p (capabilityToDict cap)).keys ≠ [] := by
        intro bare
        rw [bare] at listed
        exact rows (eq_nil_of_length_eq_zero listed)
      simpa using several
    | inr stopped => exact absurd stopped.2.2 rows
  · have barred := resolvedEmpty_barred p empty
    exact ⟨barred.2,.inr (.inl barred.1)⟩
  · cases surface_cases p (capabilityToDict cap) with
    | inl answers => exact ⟨counted answers,.inr (.inr ⟨earned,blocker⟩)⟩
    | inr stopped =>
      rw [stopped.1] at finished
      cases finished

theorem toDict_kind (cap : CapabilityExpr) : (capabilityToDict cap).kind = cap.kind := by
  cases cap
  rfl

theorem toDict_children : (capabilityToDict cap).children = cap.children.map capabilityToDict := by
  cases cap
  exact childrenToDict_eq_map _

theorem finite_pathless (kind : cap.kind = .finiteSet) : (shade p (capabilityToDict cap)).count = 0 :=
  shade_callers_count (by simp [toDict_kind,kind,showsCallers])

theorem unsupported_pathless (reason : String) : (shade p (capabilityToDict (.unsupported reason))).count = 0 := by
  rw [shade_unread (.inl (toDict_kind _))]

theorem restated_count (kind : restated.kind = cap.kind) (children : restated.children = cap.children) :
    (shade p (capabilityToDict restated)).count = (shade p (capabilityToDict cap)).count := by
  refine shade_count_congr ?_ ?_
  · rw [toDict_kind,toDict_kind,kind]
  · rw [toDict_children,toDict_children,children]

section
variable (shut : Shut p (capabilityToDict cap))
include shut

theorem Shut.restated {restated : CapabilityExpr} (kind : restated.kind = cap.kind)
    (children : restated.children = cap.children) : (shade p (capabilityToDict restated)).count = 0 :=
  (restated_count kind children).trans shut.pathless

theorem Shut.not_open : cap.kind ≠ .conditionalUniversal ∧ cap.kind ≠ .cofiniteBlacklist := by
  constructor
  · intro kind
    have pathless := shut.pathless
    rw [shade_path (.inr ((toDict_kind cap).trans kind))] at pathless
    cases pathless
  · intro kind
    have pathless := shut.pathless
    rw [shade_path (.inl ((toDict_kind cap).trans kind))] at pathless
    cases pathless

theorem Shut.before (other : CapabilityExpr) :
    (shade p (capabilityToDict (.structuralAnd [cap,other]))).count = 0 :=
  shut.first rfl rfl

theorem Shut.behind (other : CapabilityExpr) :
    (shade p (capabilityToDict (.structuralAnd [other,cap]))).count = 0 :=
  shut.second rfl rfl

theorem intersect_first (root : cap.subject = .root) :
    (shade p (capabilityToDict (intersect cap other))).count = 0 := by
  have shape := intersected cap other
  generalize intersect cap other = result at shape ⊢
  cases shape with
  | unsupported _ reason => exact unsupported_pathless reason
  | openLeft _ _ anyone => exact absurd anyone shut.not_open.1
  | boundLeft _ _ _ _ bound _ =>
    rw [root] at bound
    cases bound
  | finite _ _ _ =>
    cases intersectFinite_cases cap other with
    | inl apart =>
      rw [apart]
      exact shut.before other
    | inr folded => exact finite_pathless folded.kind
  | subtractRight _ _ _ => exact finite_pathless (intersectFiniteBlacklist_folded cap other).kind
  | subtractLeft _ kind _ => exact absurd kind shut.not_open.2
  | denied _ kind _ => exact absurd kind shut.not_open.2
  | structural _ _ _ _ _ _ => exact shut.before other
  | _ => exact shut.restated rfl rfl

theorem intersect_second (root : cap.subject = .root) :
    (shade p (capabilityToDict (intersect other cap))).count = 0 := by
  have shape := intersected other cap
  generalize intersect other cap = result at shape ⊢
  cases shape with
  | unsupported _ reason => exact unsupported_pathless reason
  | openRight _ _ _ anyone => exact absurd anyone shut.not_open.1
  | boundRight _ _ _ _ _ bound =>
    rw [root] at bound
    cases bound
  | finite _ _ _ =>
    cases intersectFinite_cases other cap with
    | inl apart =>
      rw [apart]
      exact shut.behind other
    | inr folded => exact finite_pathless folded.kind
  | subtractRight _ _ kind => exact absurd kind shut.not_open.2
  | subtractLeft _ _ _ => exact finite_pathless (intersectFiniteBlacklist_folded cap other).kind
  | denied _ _ kind => exact absurd kind shut.not_open.2
  | structural _ _ _ _ _ _ => exact shut.behind other
  | _ => exact shut.restated rfl rfl

end

def besideSibling (ctx : Context) (tree : PredicateTree) : CapabilityExpr :=
  (sideConditionCapability ctx tree).getD (evaluateTree ctx tree)

theorem evaluate_pair : evaluateTree ctx (.and [first,second]) = intersect (besideSibling ctx first)
    (besideSibling ctx second) := by
  simp [evaluateTree,evaluateConjuncts,foldCapabilities,besideSibling]

theorem beside_authority (authority : sideConditionsFromTree ctx tree = none) :
    besideSibling ctx tree = evaluateTree ctx tree := by
  simp [besideSibling,sideConditionCapability,authority]

-- Further conjuncts keep a root-caller tree closed as long as what closes it is visible.
theorem conjunct_keeps_closed {p : Projector} {ctx : Context} {tree : PredicateTree} (sibling : PredicateTree)
    (authority : sideConditionsFromTree ctx tree = none) (closed : projectsPublic p (evaluateTree ctx tree) = false)
    (guarded : (evaluateTree ctx tree).kind = .unsupported ∨ Guards p (evaluateTree ctx tree)) :
    projectsPublic p (evaluateTree ctx (.and [tree,sibling])) = false ∧
      projectsPublic p (evaluateTree ctx (.and [sibling,tree])) = false := by
  rw [evaluate_pair,evaluate_pair,beside_authority authority]
  cases guarded with
  | inl unsupported =>
    constructor
    · refine not_public_of_pathless ?_
      unfold intersect
      rw [if_pos unsupported]
      exact unsupported_pathless _
    · refine not_public_of_pathless ?_
      unfold intersect
      split
      · exact unsupported_pathless _
      · exact unsupported_pathless _
  | inr guards =>
    have shut := guards.shut closed
    exact ⟨not_public_of_pathless (intersect_first shut guards.root),not_public_of_pathless
      (intersect_second shut guards.root)⟩

-- A keeper list, an oracle's check that names no caller, and a denylist.
def answered (leaf : Leaf) : CapabilityExpr :=
  match leaf.kind with
  | .membership => .finiteSet ["0x00000000000000000000000000000000000000aa"]
  | .externalBool =>
    .externalCheckOnly {targetAddress:=some "0x00000000000000000000000000000000000000cc",targetCallSelector:=none}
  | _ => negate (.finiteSet ["0x00000000000000000000000000000000000000bb"])

def sampleContext : Context :=
  {Context.silent with authority:=answered,callerGateBasis:=fun _ => "caller_tainted_authority_unresolved"}

def keeperOnly : PredicateTree :=
  .leaf (some {kind:=.membership,authorityRole:=some .callerAuthority,referencesMsgSender:=true})

def oracleAgrees : PredicateTree := .leaf (some {kind:=.externalBool,authorityRole:=some .delegatedAuthority})

def notDenied : PredicateTree :=
  .leaf (some {kind:=.equality,authorityRole:=some .callerAuthority,referencesMsgSender:=true})

theorem conjunct_keeps_closed_keeper :
    projectsPublic {} (evaluateTree sampleContext (.and [keeperOnly,notDenied])) = false ∧
      projectsPublic {} (evaluateTree sampleContext (.and [notDenied,keeperOnly])) = false :=
  conjunct_keeps_closed notDenied rfl (by decide +kernel) (.inr ⟨rfl,.inl (by decide +kernel)⟩)

-- A check of no caller is not a public path by itself and is a condition beside one.
theorem oracle_check_opens : projectsPublic {} (evaluateTree sampleContext oracleAgrees) = false ∧
    projectsPublic {} (evaluateTree sampleContext (.and [oracleAgrees,notDenied])) = true := by
  constructor
  · decide +kernel
  · decide +kernel

end Psat.Evaluator
