import Psat.Capability.Composition

namespace Psat.Capability
open List
open CapabilityExpr (structuralAnd structuralOr tree_induction unsupported)

def conditionsIn (cap : CapabilityExpr) : List Condition := (nodes cap).flatMap (·.conditions)

theorem mem_conditionsIn : c ∈ conditionsIn cap ↔ ∃ node ∈ nodes cap, c ∈ node.conditions := mem_flatMap

theorem mem_conditionsIn_node (cap : CapabilityExpr) : c ∈ conditionsIn cap ↔ c ∈ cap.conditions ∨
    ∃ child ∈ cap.children, c ∈ conditionsIn child := by
  simp only [mem_conditionsIn]
  exact exists_nodes cap

theorem mem_conditionsIn_leaf (leaf : cap.children = []) : c ∈ conditionsIn cap ↔ c ∈ cap.conditions := by
  rw [mem_conditionsIn_node,leaf]
  simp

theorem mem_conditionsIn_structuralAnd : c ∈ conditionsIn (.structuralAnd children) ↔
    ∃ child ∈ children, c ∈ conditionsIn child := by
  match children with
  | [] =>
    rw [mem_conditionsIn_leaf rfl]
    simp [structuralAnd]
  | [child] => simp [structuralAnd]
  | first :: second :: rest =>
    rw [structuralAnd,mem_conditionsIn_node]
    · simp
    · simp

theorem mem_conditionsIn_structuralOr : c ∈ conditionsIn (.structuralOr children) ↔
    ∃ child ∈ children, c ∈ conditionsIn child := by
  match children with
  | [] =>
    rw [mem_conditionsIn_leaf rfl]
    simp [structuralOr]
  | [child] => simp [structuralOr]
  | first :: second :: rest =>
    rw [structuralOr,mem_conditionsIn_node]
    · simp
    · simp

theorem mem_conditionsIn_attach : c ∈ conditionsIn (attachConditions cap conditions) ↔ c ∈ conditionsIn cap ∨
    c ∈ conditions := by
  rw [mem_conditionsIn_node,mem_conditionsIn_node cap]
  simp only [attachConditions,mem_append]
  exact or_right_comm

theorem mem_conditionsIn_foldBound (root bound : CapabilityExpr) :
    c ∈ conditionsIn (foldBound root bound) ↔ c ∈ conditionsIn root ∨ c ∈ boundAsConditions bound.toExprFields := by
  rw [mem_conditionsIn_node,mem_conditionsIn_node root]
  simp only [foldBound,attachConditions,mem_append]
  exact or_right_comm

theorem Folded.mem_conditionsIn (folded : Folded a b cap) (leafA : a.children = []) (leafB : b.children = []) :
    c ∈ conditionsIn cap ↔ c ∈ conditionsIn a ∨ c ∈ conditionsIn b := by
  rw [mem_conditionsIn_leaf folded.children,mem_conditionsIn_leaf leafA,mem_conditionsIn_leaf leafB,
    folded.conditions,mem_append]

theorem combineBlacklists_conditionsIn (denied : List String) : c ∉ conditionsIn (combineBlacklists denied a b) := by
  exact not_mem_nil

-- How the combinators build a node over the four kinds of leaf.
structure Shaped (node : CapabilityExpr) : Prop where
  kinds : node.kind ≠ .thresholdGroup ∧ node.kind ≠ .signatureWitness
  leaf : node.kind ≠ .and → node.kind ≠ .or → node.children = []
  composed : node.kind = .and ∨ node.kind = .or → 2 ≤ node.children.length ∧ node.subject = .root
  bare : node.kind = .unsupported → node.conditions = []

def Regular (cap : CapabilityExpr) : Prop := ∀ node ∈ nodes cap, Shaped node

section
variable {a b cap : CapabilityExpr}

theorem regular_iff : Regular cap ↔ Shaped cap ∧ ∀ child ∈ cap.children, Regular child := forall_nodes cap

theorem Regular.shaped (regular : Regular cap) : Shaped cap := (regular_iff.mp regular).1

theorem regular_leaf (kind : cap.kind = .finiteSet ∨ cap.kind = .cofiniteBlacklist ∨ cap.kind = .externalCheckOnly ∨
    cap.kind = .conditionalUniversal) (leaf : cap.children = []) : Regular cap := by
  rw [regular_iff,leaf]
  refine ⟨?_,fun _ member => absurd member not_mem_nil⟩
  rcases kind with kind | kind | kind | kind <;>
    exact ⟨by simp [kind],fun _ _ => leaf,by simp [kind],by simp [kind]⟩

theorem regular_unsupported : Regular (.unsupported reason) := by
  rw [regular_iff]
  exact ⟨⟨by simp [unsupported],fun _ _ => rfl,by simp [unsupported],fun _ => rfl⟩,
    fun _ member => absurd member not_mem_nil⟩

variable {children : List CapabilityExpr}

theorem regular_structuralAnd (wide : 2 ≤ children.length) (each : ∀ child ∈ children, Regular child) :
    Regular (.structuralAnd children) := by
  match children with
  | first :: second :: rest =>
    rw [regular_iff]
    exact ⟨⟨by simp [structuralAnd],fun other => absurd rfl other,fun _ => ⟨wide,rfl⟩,nofun⟩,each⟩

theorem regular_structuralOr (wide : 2 ≤ children.length) (each : ∀ child ∈ children, Regular child) :
    Regular (.structuralOr children) := by
  match children with
  | first :: second :: rest =>
    rw [regular_iff]
    exact ⟨⟨by simp [structuralOr],fun _ other => absurd rfl other,fun _ => ⟨wide,rfl⟩,nofun⟩,each⟩

theorem pair_regular (regularA : Regular a) (regularB : Regular b) : ∀ child ∈ [a,b], Regular child := by
  intro child member
  rcases mem_pair.mp member with rfl | rfl
  · exact regularA
  · exact regularB

theorem Regular.restate (regular : Regular a) (supported : a.kind ≠ .unsupported) (kind : b.kind = a.kind)
    (subject : b.subject = a.subject) (children : b.children = a.children) : Regular b := by
  obtain ⟨shaped,under⟩ := regular_iff.mp regular
  rw [regular_iff,children]
  refine ⟨⟨?_,?_,?_,?_⟩,under⟩
  · rw [kind]
    exact shaped.kinds
  · rw [kind,children]
    exact shaped.leaf
  · rw [kind,children,subject]
    exact shaped.composed
  · intro unsupported
    exact absurd (kind ▸ unsupported) supported

theorem intersect_regular (regularA : Regular a) (regularB : Regular b) (supportedA : a.kind ≠ .unsupported)
    (supportedB : b.kind ≠ .unsupported) : Regular (intersect a b) ∧ (intersect a b).kind ≠ .unsupported := by
  have structural : Regular (.structuralAnd [a,b]) ∧ (structuralAnd [a,b]).kind ≠ .unsupported :=
    ⟨regular_structuralAnd (le_refl 2) (pair_regular regularA regularB),nofun⟩
  have shape := intersected a b
  generalize intersect a b = result at shape ⊢
  cases shape with
  | unsupported either => exact absurd either (not_or.mpr ⟨supportedA,supportedB⟩)
  | openLeft | boundLeft => exact ⟨regularB.restate supportedB rfl rfl rfl,supportedB⟩
  | finite =>
    cases intersectFinite_cases a b with
    | inl kept => rw [kept]; exact structural
    | inr folded => exact ⟨regular_leaf (.inl folded.kind) folded.children,by simp [folded.kind]⟩
  | subtractRight | subtractLeft => exact ⟨regular_leaf (.inl rfl) rfl,nofun⟩
  | denied => exact ⟨regular_leaf (.inr (.inl rfl)) rfl,nofun⟩
  | structural => exact structural
  | _ => exact ⟨regularA.restate supportedA rfl rfl rfl,supportedA⟩

theorem union_regular (regularA : Regular a) (regularB : Regular b) (supportedA : a.kind ≠ .unsupported) :
    Regular (union a b) ∧ (union a b).kind ≠ .unsupported := by
  have structural : Regular (.structuralOr [a,b]) ∧ (structuralOr [a,b]).kind ≠ .unsupported :=
    ⟨regular_structuralOr (le_refl 2) (pair_regular regularA regularB),nofun⟩
  have shape := joined a b
  generalize union a b = result at shape ⊢
  cases shape with
  | finite =>
    cases unionFinite_cases a b with
    | inl kept => rw [kept]; exact structural
    | inr folded => exact ⟨regular_leaf (.inl folded.kind) folded.children,by simp [folded.kind]⟩
  | same => exact ⟨regularA,supportedA⟩
  | structural => exact structural
  | _ => exact ⟨regular_leaf (.inr (.inl rfl)) rfl,nofun⟩

theorem negate_regular (regular : Regular a) : Regular (negate a) := by
  induction a using tree_induction with
  | node a ih =>
    obtain ⟨shaped,under⟩ := regular_iff.mp regular
    have each : ∀ child ∈ a.children.map negate, Regular child := by
      intro child member
      obtain ⟨source,inside,rfl⟩ := mem_map.mp member
      exact ih source inside (under source inside)
    cases kind : a.kind with
    | finiteSet => rw [negate_finite kind]; exact regular_leaf (.inr (.inl rfl)) rfl
    | cofiniteBlacklist => rw [negate_cofinite kind]; exact regular_leaf (.inl rfl) rfl
    | externalCheckOnly => rw [negate_check kind]; exact regular_leaf (.inr (.inl rfl)) rfl
    | conditionalUniversal => rw [negate_open kind]; exact regular_unsupported
    | thresholdGroup => exact absurd kind shaped.kinds.1
    | signatureWitness => exact absurd kind shaped.kinds.2
    | unsupported => rw [negate_unsupported kind]; exact regular_unsupported
    | and =>
      rw [negate_and kind]
      exact regular_structuralOr (by simpa using (shaped.composed (.inl kind)).1) each
    | or =>
      rw [negate_or kind]
      exact regular_structuralAnd (by simpa using (shaped.composed (.inr kind)).1) each

theorem structuralOr_kind (wide : 2 ≤ children.length) : (structuralOr children).kind = .or := by
  match children with
  | _ :: _ :: _ => rfl

theorem structuralAnd_kind (wide : 2 ≤ children.length) : (structuralAnd children).kind = .and := by
  match children with
  | _ :: _ :: _ => rfl

theorem negate_supported (regular : Regular a) (supported : a.kind ≠ .unsupported)
    (closed : a.kind ≠ .conditionalUniversal) :
    (negate a).kind ≠ .unsupported := by
  have shaped := regular.shaped
  cases kind : a.kind with
  | finiteSet => rw [negate_finite kind]; nofun
  | cofiniteBlacklist => rw [negate_cofinite kind]; nofun
  | externalCheckOnly => rw [negate_check kind]; nofun
  | conditionalUniversal => exact absurd kind closed
  | thresholdGroup => exact absurd kind shaped.kinds.1
  | signatureWitness => exact absurd kind shaped.kinds.2
  | unsupported => exact absurd kind supported
  | and =>
    rw [negate_and kind,structuralOr_kind (by simpa using (shaped.composed (.inl kind)).1)]
    nofun
  | or =>
    rw [negate_or kind,structuralAnd_kind (by simpa using (shaped.composed (.inr kind)).1)]
    nofun

-- The conditions that the complement of a node keeps.
def carried (node : ExprFields) : List Condition :=
  match node.kind with
  | .finiteSet => node.conditions
  | .cofiniteBlacklist => node.conditions
  | .externalCheckOnly => node.conditions ++ (externalCheckAsCondition node.check).toList
  | _ => []

theorem mem_conditionsIn_negate (regular : Regular a) : c ∈ conditionsIn (negate a) ↔
    ∃ node ∈ nodes a, c ∈ carried node.toExprFields := by
  induction a using tree_induction with
  | node a ih =>
    obtain ⟨shaped,under⟩ := regular_iff.mp regular
    have nested : (∃ child ∈ a.children.map negate, c ∈ conditionsIn child) ↔
      ∃ child ∈ a.children, ∃ node ∈ nodes child, c ∈ carried node.toExprFields := by
      simp only [mem_map,exists_exists_and_eq_and]
      exact exists_congr fun child => and_congr_right fun member => ih child member (under child member)
    rw [exists_nodes]
    cases kind : a.kind with
    | finiteSet =>
      rw [negate_finite kind,mem_conditionsIn_leaf rfl,shaped.leaf (by simp [kind]) (by simp [kind])]
      simp [carried,kind,complementFinite,carryFoldProvenance]
    | cofiniteBlacklist =>
      rw [negate_cofinite kind,mem_conditionsIn_leaf rfl,shaped.leaf (by simp [kind]) (by simp [kind])]
      simp [carried,kind,complementBlacklist,carryFoldProvenance]
    | externalCheckOnly =>
      rw [negate_check kind,mem_conditionsIn_leaf rfl,shaped.leaf (by simp [kind]) (by simp [kind])]
      simp [carried,kind,complementCheck]
    | conditionalUniversal =>
      rw [negate_open kind,mem_conditionsIn_leaf rfl,shaped.leaf (by simp [kind]) (by simp [kind])]
      simp [carried,kind,unsupported]
    | thresholdGroup => exact absurd kind shaped.kinds.1
    | signatureWitness => exact absurd kind shaped.kinds.2
    | unsupported =>
      rw [negate_unsupported kind,mem_conditionsIn_leaf rfl,shaped.leaf (by simp [kind]) (by simp [kind])]
      simp [carried,kind,unsupported]
    | and =>
      rw [negate_and kind,mem_conditionsIn_structuralOr,nested]
      simp [carried,kind]
    | or =>
      rw [negate_or kind,mem_conditionsIn_structuralAnd,nested]
      simp [carried,kind]

-- Two denylists of one subject, one of them under a condition.
def Dropped (a b : ExprFields) : Prop :=
  a.kind = .cofiniteBlacklist ∧ b.kind = .cofiniteBlacklist ∧ a.subject = b.subject ∧
    (a.conditions ≠ [] ∨ b.conditions ≠ [])

def KeptBy (a b result : CapabilityExpr) : Prop :=
  ∀ c, c ∈ conditionsIn a ∨ c ∈ conditionsIn b → c ∈ conditionsIn result

theorem keptBy_combine_iff (leafA : a.children = []) (leafB : b.children = []) :
    KeptBy a b (combineBlacklists denied a b) ↔ a.conditions = [] ∧ b.conditions = [] := by
  constructor
  · intro kept
    constructor
    · refine eq_nil_iff_forall_not_mem.mpr fun c member => ?_
      exact combineBlacklists_conditionsIn denied (kept c (.inl ((mem_conditionsIn_leaf leafA).mpr member)))
    · refine eq_nil_iff_forall_not_mem.mpr fun c member => ?_
      exact combineBlacklists_conditionsIn denied (kept c (.inr ((mem_conditionsIn_leaf leafB).mpr member)))
  · rintro ⟨noneA,noneB⟩ c (member | member)
    · rw [mem_conditionsIn_leaf leafA,noneA] at member
      cases member
    · rw [mem_conditionsIn_leaf leafB,noneB] at member
      cases member

theorem Shaped.leaf_of_listing (shaped : Shaped a) (listing : a.kind = .finiteSet ∨ a.kind = .cofiniteBlacklist ∨
    a.kind = .conditionalUniversal) : a.children = [] := by
  rcases listing with kind | kind | kind <;> exact shaped.leaf (by simp [kind]) (by simp [kind])

theorem Shaped.leaf_of_bound (shaped : Shaped a) (bound : a.subject = .bound) : a.children = [] := by
  apply shaped.leaf
  · intro kind
    exact absurd (bound.symm.trans (shaped.composed (.inl kind)).2) nofun
  · intro kind
    exact absurd (bound.symm.trans (shaped.composed (.inr kind)).2) nofun

theorem not_dropped_of_kind (other : a.kind ≠ .cofiniteBlacklist ∨ b.kind ≠ .cofiniteBlacklist ∨
    a.subject ≠ b.subject) :
    ¬ Dropped a.toExprFields b.toExprFields := by
  rintro ⟨kindA,kindB,same,_⟩
  rcases other with differs | differs | differs
  · exact differs kindA
  · exact differs kindB
  · exact differs same

theorem keptBy_foldBound (leaf : b.children = []) : KeptBy a b (foldBound a b) := by
  rintro c (member | member)
  · exact (mem_conditionsIn_foldBound a b).mpr (.inl member)
  · exact (mem_conditionsIn_foldBound a b).mpr (.inr (mem_append_left _ ((mem_conditionsIn_leaf leaf).mp member)))

theorem KeptBy.swap (kept : KeptBy b a result) : KeptBy a b result :=
  fun c either => kept c either.symm

theorem dropped_or_none (kindA : a.kind = .cofiniteBlacklist) (kindB : b.kind = .cofiniteBlacklist)
    (same : a.subject = b.subject) :
    a.conditions = [] ∧ b.conditions = [] ↔ ¬ Dropped a.toExprFields b.toExprFields := by
  simp only [Dropped,kindA,kindB,same,true_and,not_or,not_not]

theorem intersect_keeps_iff (regularA : Regular a) (regularB : Regular b) (supportedA : a.kind ≠ .unsupported)
    (supportedB : b.kind ≠ .unsupported) : KeptBy a b (intersect a b) ↔ ¬ Dropped a.toExprFields b.toExprFields := by
  have structural : KeptBy a b (.structuralAnd [a,b]) := by
    intro c either
    simpa [mem_conditionsIn_structuralAnd] using either
  have shape := intersected a b
  generalize intersect a b = result at shape ⊢
  cases shape with
  | unsupported either => exact absurd either (not_or.mpr ⟨supportedA,supportedB⟩)
  | openLeft _ _ anyone =>
    have leaf := regularA.shaped.leaf_of_listing (.inr (.inr anyone))
    refine iff_of_true ?_ (not_dropped_of_kind (.inl (by simp [anyone])))
    rintro c (member | member)
    · exact (mem_conditionsIn_attach).mpr (.inr ((mem_conditionsIn_leaf leaf).mp member))
    · exact (mem_conditionsIn_attach).mpr (.inl member)
  | openRight _ _ _ anyone =>
    have leaf := regularB.shaped.leaf_of_listing (.inr (.inr anyone))
    refine iff_of_true ?_ (not_dropped_of_kind (.inr (.inl (by simp [anyone]))))
    rintro c (member | member)
    · exact (mem_conditionsIn_attach).mpr (.inl member)
    · exact (mem_conditionsIn_attach).mpr (.inr ((mem_conditionsIn_leaf leaf).mp member))
  | boundRight _ _ _ _ rootA boundB =>
    exact iff_of_true (keptBy_foldBound (regularB.shaped.leaf_of_bound boundB))
      (not_dropped_of_kind (.inr (.inr (by simp [rootA,boundB]))))
  | boundLeft _ _ _ _ boundA rootB =>
    exact iff_of_true (keptBy_foldBound (regularA.shaped.leaf_of_bound boundA)).swap
      (not_dropped_of_kind (.inr (.inr (by simp [boundA,rootB]))))
  | finite _ kindA kindB =>
    refine iff_of_true ?_ (not_dropped_of_kind (.inl (by simp [kindA])))
    cases intersectFinite_cases a b with
    | inl kept => rw [kept]; exact structural
    | inr folded =>
      intro c either
      exact (folded.mem_conditionsIn (regularA.shaped.leaf_of_listing (.inl kindA))
        (regularB.shaped.leaf_of_listing (.inl kindB))).mpr either
  | subtractRight _ kindA kindB =>
    refine iff_of_true (fun c either => ?_) (not_dropped_of_kind (.inl (by simp [kindA])))
    exact ((intersectFiniteBlacklist_folded a b).mem_conditionsIn (regularA.shaped.leaf_of_listing (.inl kindA))
      (regularB.shaped.leaf_of_listing (.inr (.inl kindB)))).mpr either
  | subtractLeft _ kindA kindB =>
    refine iff_of_true (fun c either => ?_) (not_dropped_of_kind (.inr (.inl (by simp [kindB]))))
    exact ((intersectFiniteBlacklist_folded b a).mem_conditionsIn (regularB.shaped.leaf_of_listing (.inl kindB))
      (regularA.shaped.leaf_of_listing (.inr (.inl kindA)))).mpr either.symm
  | denied same kindA kindB =>
    rw [←dropped_or_none kindA kindB same]
    exact keptBy_combine_iff (regularA.shaped.leaf_of_listing (.inr (.inl kindA)))
      (regularB.shaped.leaf_of_listing (.inr (.inl kindB)))
  | structural _ _ _ _ _ other =>
    refine iff_of_true structural (not_dropped_of_kind ?_)
    cases other with
    | inl differs => exact .inl fun kind => by simp [kind,CapKind.isListing] at differs
    | inr differs => exact .inr (.inl fun kind => by simp [kind,CapKind.isListing] at differs)

theorem unionFiniteBlacklist_keeps (leafA : a.children = []) (leafB : b.children = []) :
    KeptBy a b (unionFiniteBlacklist a b) := by
  intro c either
  rw [mem_conditionsIn_leaf leafA,mem_conditionsIn_leaf leafB] at either
  rw [mem_conditionsIn_leaf rfl]
  exact mem_append.mpr either

theorem union_keeps_iff (regularA : Regular a) (regularB : Regular b) :
    KeptBy a b (union a b) ↔ ¬ Dropped a.toExprFields b.toExprFields := by
  have structural : KeptBy a b (.structuralOr [a,b]) := by
    intro c either
    simpa [mem_conditionsIn_structuralOr] using either
  have shape := joined a b
  generalize union a b = result at shape ⊢
  cases shape with
  | finite _ kindA kindB =>
    refine iff_of_true ?_ (not_dropped_of_kind (.inl (by simp [kindA])))
    cases unionFinite_cases a b with
    | inl kept => rw [kept]; exact structural
    | inr folded =>
      intro c either
      exact (folded.mem_conditionsIn (regularA.shaped.leaf_of_listing (.inl kindA))
        (regularB.shaped.leaf_of_listing (.inl kindB))).mpr either
  | addLeft _ kindA kindB =>
    exact iff_of_true (unionFiniteBlacklist_keeps (regularA.shaped.leaf_of_listing (.inl kindA))
      (regularB.shaped.leaf_of_listing (.inr (.inl kindB)))) (not_dropped_of_kind (.inl (by simp [kindA])))
  | addRight _ kindA kindB =>
    exact iff_of_true (unionFiniteBlacklist_keeps (regularB.shaped.leaf_of_listing (.inl kindB))
      (regularA.shaped.leaf_of_listing (.inr (.inl kindA)))).swap (not_dropped_of_kind (.inr (.inl (by simp [kindB]))))
  | denied same kindA kindB =>
    rw [←dropped_or_none kindA kindB same]
    exact keptBy_combine_iff (regularA.shaped.leaf_of_listing (.inr (.inl kindA)))
      (regularB.shaped.leaf_of_listing (.inr (.inl kindB)))
  | same kindA kindB conditions =>
    refine iff_of_true ?_ (not_dropped_of_kind (.inl (by simp [kindA])))
    have leafA := regularA.shaped.leaf_of_listing (.inr (.inr kindA))
    have leafB := regularB.shaped.leaf_of_listing (.inr (.inr kindB))
    rintro c (member | member)
    · exact member
    · rw [mem_conditionsIn_leaf leafB,←conditions] at member
      exact (mem_conditionsIn_leaf leafA).mpr member
  | structural other =>
    refine iff_of_true structural (not_dropped_of_kind ?_)
    rcases other with differs | differs | differs
    · exact .inl fun kind => by simp [kind,CapKind.isListing] at differs
    · exact .inr (.inl fun kind => by simp [kind,CapKind.isListing] at differs)
    · exact .inr (.inr differs)

-- A condition on an AND, an OR or an open leaf that no set or probe carries.
def Unheld (a : CapabilityExpr) : Prop :=
  ∃ node ∈ nodes a, (node.kind = .and ∨ node.kind = .or ∨ node.kind = .conditionalUniversal) ∧
    ∃ c ∈ node.conditions, ∀ holder ∈ nodes a, c ∉ carried holder.toExprFields

theorem mem_carried_or_structural (shaped : Shaped a) (member : c ∈ a.conditions) :
    c ∈ carried a.toExprFields ∨ a.kind = .and ∨ a.kind = .or ∨ a.kind = .conditionalUniversal := by
  cases kind : a.kind with
  | conditionalUniversal => simp
  | thresholdGroup => exact absurd kind shaped.kinds.1
  | signatureWitness => exact absurd kind shaped.kinds.2
  | unsupported =>
    rw [shaped.bare kind] at member
    cases member
  | and => simp
  | or => simp
  | _ => simp [carried,kind,member]

theorem negate_keeps_iff (regular : Regular a) : (∀ c ∈ conditionsIn a, c ∈ conditionsIn (negate a)) ↔ ¬ Unheld a := by
  constructor
  · rintro kept ⟨node,member,_,c,attached,missing⟩
    obtain ⟨holder,inside,held⟩ := (mem_conditionsIn_negate regular).mp
      (kept c (mem_conditionsIn.mpr ⟨node,member,attached⟩))
    exact missing holder inside held
  · intro held c member
    obtain ⟨node,inside,attached⟩ := mem_conditionsIn.mp member
    rw [mem_conditionsIn_negate regular]
    cases mem_carried_or_structural (regular node inside) attached with
    | inl own => exact ⟨node,inside,own⟩
    | inr structural =>
      by_contra missing
      exact held ⟨node,inside,structural,c,attached,fun holder below carries => missing ⟨holder,below,carries⟩⟩

end

namespace Composition

-- The leaves whose conditions are followed, negation kept off open ones.
def Sided : Composition → Prop
  | leaf cap =>
    (cap.kind = .finiteSet ∨ cap.kind = .cofiniteBlacklist ∨ cap.kind = .externalCheckOnly ∨
      cap.kind = .conditionalUniversal) ∧
        cap.children = []
  | intersect x y => x.Sided ∧ y.Sided
  | union x y => x.Sided ∧ y.Sided
  | negate x => x.Sided ∧ x.value.kind ≠ .conditionalUniversal

theorem Sided.regular {x : Composition} (sided : x.Sided) : Regular x.value ∧ x.value.kind ≠ .unsupported := by
  induction x with
  | leaf cap =>
    obtain ⟨kind,leaf⟩ := sided
    refine ⟨regular_leaf kind leaf,?_⟩
    change cap.kind ≠ .unsupported
    rcases kind with kind | kind | kind | kind <;> simp [kind]
  | intersect x y left right =>
    obtain ⟨regularX,supportedX⟩ := left sided.1
    obtain ⟨regularY,supportedY⟩ := right sided.2
    exact intersect_regular regularX regularY supportedX supportedY
  | union x y left right =>
    obtain ⟨regularX,supportedX⟩ := left sided.1
    exact union_regular regularX (right sided.2).1 supportedX
  | negate x ih =>
    obtain ⟨regular,supported⟩ := ih sided.1
    exact ⟨negate_regular regular,negate_supported regular supported sided.2⟩

-- Every condition attached on the way stands on some node of the result.
def Keeps (x : Composition) : Prop :=
  x.value.kind ≠ .unsupported → ∀ part ∈ x.parts, ∀ c ∈ conditionsIn part.value, c ∈ conditionsIn x.value

def Carries : Composition → Prop
  | leaf _ => True
  | intersect x y => ¬ Dropped x.value.toExprFields y.value.toExprFields
  | union x y => ¬ Dropped x.value.toExprFields y.value.toExprFields
  | negate x => ¬ Unheld x.value

theorem keptBy_parts {x y : Composition} (supportedX : x.value.kind ≠ .unsupported)
    (supportedY : y.value.kind ≠ .unsupported) (keepsX : x.Keeps) (keepsY : y.Keeps)
    (kept : KeptBy x.value y.value result) :
    ∀ part ∈ x.parts ++ y.parts, ∀ c ∈ conditionsIn part.value, c ∈ conditionsIn result := by
  intro part member c attached
  cases mem_append.mp member with
  | inl inside => exact kept c (.inl (keepsX supportedX part inside c attached))
  | inr inside => exact kept c (.inr (keepsY supportedY part inside c attached))

theorem keptBy_of_keeps {x y z : Composition} (supported : z.value.kind ≠ .unsupported) (keeps : z.Keeps)
    (inX : x ∈ z.parts)
    (inY : y ∈ z.parts) : KeptBy x.value y.value z.value := by
  rintro c (member | member)
  · exact keeps supported x inX c member
  · exact keeps supported y inY c member

theorem kept_step {x y z : Composition} (split : z.parts = z :: (x.parts ++ y.parts))
    (supportedX : x.value.kind ≠ .unsupported)
    (supportedY : y.value.kind ≠ .unsupported) (supported : z.value.kind ≠ .unsupported)
    (step : KeptBy x.value y.value z.value ↔ z.Carries)
    (earlierX : (∀ part ∈ x.parts, part.Keeps) ↔ ∀ part ∈ x.parts, part.Carries)
    (earlierY : (∀ part ∈ y.parts, part.Keeps) ↔ ∀ part ∈ y.parts, part.Carries) :
    (∀ part ∈ z.parts, part.Keeps) ↔ ∀ part ∈ z.parts, part.Carries := by
  have inX : x ∈ z.parts := by
    rw [split]
    exact mem_cons_of_mem _ (mem_append_left _ (self_mem_parts x))
  have inY : y ∈ z.parts := by
    rw [split]
    exact mem_cons_of_mem _ (mem_append_right _ (self_mem_parts y))
  constructor
  · intro keeps
    have last := step.mp (keptBy_of_keeps supported (keeps z (self_mem_parts z)) inX inY)
    rw [split,forall_mem_cons,forall_mem_append] at keeps ⊢
    exact ⟨last,earlierX.mp keeps.2.1,earlierY.mp keeps.2.2⟩
  · intro carries
    rw [split,forall_mem_cons,forall_mem_append] at carries
    obtain ⟨last,carriesX,carriesY⟩ := carries
    have keepsX := earlierX.mpr carriesX
    have keepsY := earlierY.mpr carriesY
    have keeps : z.Keeps := by
      intro _
      rw [split]
      exact forall_mem_cons.mpr ⟨fun _ => id,keptBy_parts supportedX supportedY (keepsX x (self_mem_parts x))
        (keepsY y (self_mem_parts y)) (step.mpr last)⟩
    rw [split,forall_mem_cons,forall_mem_append]
    exact ⟨keeps,keepsX,keepsY⟩

theorem conditions_kept_iff {x : Composition} (sided : x.Sided) : (∀ part ∈ x.parts, part.Keeps) ↔
    ∀ part ∈ x.parts, part.Carries := by
  induction x with
  | leaf cap =>
    simp only [parts,mem_singleton,forall_eq]
    refine iff_of_true (fun _ part member => ?_) trivial
    rw [mem_singleton.mp member]
    exact fun _ => id
  | intersect x y left right =>
    obtain ⟨regularX,supportedX⟩ := sided.1.regular
    obtain ⟨regularY,supportedY⟩ := sided.2.regular
    exact kept_step rfl supportedX supportedY sided.regular.2
      (intersect_keeps_iff regularX regularY supportedX supportedY)
      (left sided.1) (right sided.2)
  | union x y left right =>
    obtain ⟨regularX,supportedX⟩ := sided.1.regular
    obtain ⟨regularY,supportedY⟩ := sided.2.regular
    exact kept_step rfl supportedX supportedY sided.regular.2 (union_keeps_iff regularX regularY)
      (left sided.1) (right sided.2)
  | negate x ih =>
    obtain ⟨regular,supported⟩ := sided.1.regular
    have step := negate_keeps_iff regular
    have earlier := ih sided.1
    constructor
    · intro keeps
      have last : (negate x).Carries :=
        step.mp (keeps _ (self_mem_parts _) sided.regular.2 x (mem_cons_of_mem _ (self_mem_parts x)))
      exact forall_mem_cons.mpr ⟨last,earlier.mp (forall_mem_cons.mp keeps).2⟩
    · intro carries
      obtain ⟨last,before⟩ := forall_mem_cons.mp carries
      have keeps := earlier.mpr before
      refine forall_mem_cons.mpr ⟨fun _ => forall_mem_cons.mpr ⟨fun _ => id,fun part member c attached => ?_⟩,keeps⟩
      exact step.mpr last c (keeps x (self_mem_parts x) supported part member c attached)

def whenLive : Condition := {kind:=.pause,description:="not paused"}

def pausable (cap : CapabilityExpr) : CapabilityExpr := {cap with conditions:=[whenLive]}

def twoDenylists : Composition :=
  intersect (leaf (pausable (.cofiniteBlacklist ["0xaa"]))) (leaf (.cofiniteBlacklist ["0xbb"]))

theorem pause_lost_between_denylists : twoDenylists.Sided ∧ twoDenylists.value.kind ≠ .unsupported ∧
    (∃ leaf ∈ twoDenylists.leaves, whenLive ∈ leaf.conditions) ∧ whenLive ∉ conditionsIn twoDenylists.value := by
  refine ⟨⟨⟨.inr (.inl rfl),rfl⟩,.inr (.inl rfl),rfl⟩,nofun,⟨_,mem_cons_self,mem_cons_self⟩,?_⟩
  have combined : twoDenylists.value =
    combineBlacklists (canonAddresses (canonAddresses ["0xaa"] ++ canonAddresses ["0xbb"]))
      (pausable (.cofiniteBlacklist ["0xaa"]))
      (.cofiniteBlacklist ["0xbb"]) := rfl
  rw [combined]
  exact combineBlacklists_conditionsIn _

def probe : CapabilityExpr := .externalCheckOnly {targetAddress:=some "0xcc",targetCallSelector:=none}

def screenedKeeper : Composition := intersect (leaf (pausable (.finiteSet ["0xaa"]))) (negate (leaf probe))

theorem conditions_kept_iff_screened : screenedKeeper.Sided ∧ ∀ part ∈ screenedKeeper.parts, part.Keeps := by
  have sided : screenedKeeper.Sided := ⟨⟨.inl rfl,rfl⟩,⟨.inr (.inr (.inl rfl)),rfl⟩,nofun⟩
  refine ⟨sided,(conditions_kept_iff sided).mpr (forall_mem_cons.mpr ⟨?_,?_⟩)⟩
  · exact fun dropped => absurd dropped.1 nofun
  · refine forall_mem_cons.mpr ⟨trivial,forall_mem_cons.mpr ⟨?_,forall_mem_cons.mpr ⟨trivial,nofun⟩⟩⟩
    rintro ⟨node,member,kind,_⟩
    have only : node = probe := mem_singleton.mp member
    subst only
    rcases kind with kind | kind | kind <;> exact absurd kind nofun

end Composition

end Psat.Capability
