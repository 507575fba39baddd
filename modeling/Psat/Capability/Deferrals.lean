import Psat.Capability.Composition

namespace Psat.Capability
open Psat.General List Text

-- A deferral's authority and the topic cursors it waits on.
abbrev Deferral := String × List String

def deferral (address : Option String) (topic0s : List String) : Option Deferral :=
  match address with
  | none => none
  | some address =>
    if isAddress address then some (lower address,Sorted.sortedSet (topic0s.map lower)) else none

def checkDeferrals (check : Option ExternalCheck) : List Deferral :=
  match check with
  | none => []
  | some check =>
    if check.extra.deferredPendingIndex then (deferral check.targetAddress check.extra.deferredTopic0s).toList else []

def stepDeferrals (step : TraceStep) : List Deferral :=
  if step.deferredPendingIndex then (deferral step.targetAddress step.deferredTopic0s).toList else []

mutual

def iterDeferrals : CapDict → List Deferral
  | ⟨fields,signer,children⟩ =>
    (if fields.kind = .externalCheckOnly then checkDeferrals fields.check else []) ++
      fields.trace.flatMap stepDeferrals ++
        iterChildren children ++ iterSigner signer

def iterSigner : Option CapDict → List Deferral
  | none => []
  | some signer => iterDeferrals signer

def iterChildren : List CapDict → List Deferral
  | [] => []
  | child :: rest => iterDeferrals child ++ iterChildren rest

end

def Shows (d : Deferral) (cap : CapabilityExpr) : Prop := d ∈ iterDeferrals (capabilityToDict cap)

-- On the node itself: its probe, or a step of its trace.
def Own (d : Deferral) (node : ExprFields) : Prop :=
  (node.kind = .externalCheckOnly ∧ d ∈ checkDeferrals node.check) ∨ ∃ step ∈ node.trace, d ∈ stepDeferrals step

section
variable {d : Deferral} {a b cap : CapabilityExpr}

theorem mem_iterChildren : d ∈ iterChildren (childrenToDict children) ↔ ∃ child ∈ children, Shows d child := by
  induction children with
  | nil => simp [childrenToDict,iterChildren]
  | cons child rest ih => simp [childrenToDict,iterChildren,ih,Shows]

theorem mem_iterSigner : d ∈ iterSigner (signerToDict signer) ↔ ∃ held, signer = some held ∧ Shows d held := by
  cases signer with
  | none => simp [signerToDict,iterSigner]
  | some held => simp [signerToDict,iterSigner,Shows]

theorem shows_iff (cap : CapabilityExpr) :
    Shows d cap ↔ Own d cap.toExprFields ∨ (∃ child ∈ cap.children, Shows d child) ∨ ∃ held, cap.signer = some held ∧
    Shows d held := by
  obtain ⟨fields,signer,children⟩ := cap
  rw [Shows,capabilityToDict,iterDeferrals,mem_append,mem_append,mem_append,mem_iterChildren,mem_iterSigner,or_assoc]
  refine or_congr_left (or_congr ?_ mem_flatMap)
  by_cases kind : fields.kind = .externalCheckOnly <;> simp [ExprFields.toDict,kind]

theorem mem_deferralSteps (waits : d.2 ≠ []) (shown : d ∈ checkDeferrals check) :
    ∃ step ∈ deferralSteps check, d ∈ stepDeferrals step := by
  cases check with
  | none => exact absurd shown not_mem_nil
  | some check =>
    simp only [checkDeferrals] at shown
    split at shown
    · rename_i marked
      have topics : check.extra.deferredTopic0s ≠ [] := by
        intro none
        simp only [deferral,none] at shown
        split at shown
        · exact absurd shown not_mem_nil
        · split at shown
          · rw [mem_singleton.mp shown] at waits
            exact waits rfl
          · exact absurd shown not_mem_nil
      have folded : deferralSteps (some check) =
        [{step:=deferredStep,deferredPendingIndex:=true,targetAddress:=check.targetAddress,
          deferredTopic0s:=check.extra.deferredTopic0s}] := by
        simp [deferralSteps,marked,topics]
      rw [folded]
      exact ⟨_,mem_singleton_self _,by simpa [stepDeferrals] using shown⟩
    · exact absurd shown not_mem_nil

theorem marked_of_mem (shown : d ∈ stepDeferrals step) : step.deferredPendingIndex = true := by
  by_contra unmarked
  simp [stepDeferrals,unmarked] at shown

theorem mem_carriedDeferrals (member : a ∈ operands) (inside : step ∈ a.trace)
    (shown : d ∈ stepDeferrals step) : step ∈ carriedDeferrals operands := by
  rw [carriedDeferrals,mem_flatMap]
  exact ⟨a,member,mem_filter.mpr ⟨inside,marked_of_mem shown⟩⟩

theorem Own.on_trace (own : Own d a.toExprFields) (kind : a.kind ≠ .externalCheckOnly) :
    ∃ step ∈ a.trace, d ∈ stepDeferrals step := by
  cases own with
  | inl probe => exact absurd probe.1 kind
  | inr traced => exact traced

theorem Shows.restate (shown : Shows d a) (kind : b.kind = a.kind) (check : b.check = a.check)
    (trace : a.trace ⊆ b.trace)
    (children : b.children = a.children) (signer : b.signer = a.signer) : Shows d b := by
  rw [shows_iff] at shown ⊢
  rw [children,signer]
  rcases shown with (⟨probe,own⟩ | ⟨step,inside,own⟩) | below
  · exact .inl (.inl ⟨kind.trans probe,by rw [check]; exact own⟩)
  · exact .inl (.inr ⟨step,trace inside,own⟩)
  · exact .inr below

theorem shows_structuralAnd (member : a ∈ children) (shown : Shows d a) : Shows d (.structuralAnd children) := by
  match children with
  | [child] => rw [mem_singleton.mp member] at shown; exact shown
  | _ :: _ :: _ => exact (shows_iff _).mpr (.inr (.inl ⟨a,member,shown⟩))

theorem shows_structuralOr (member : a ∈ children) (shown : Shows d a) : Shows d (.structuralOr children) := by
  match children with
  | [child] => rw [mem_singleton.mp member] at shown; exact shown
  | _ :: _ :: _ => exact (shows_iff _).mpr (.inr (.inl ⟨a,member,shown⟩))

theorem shows_of_trace (inside : step ∈ a.trace) (own : d ∈ stepDeferrals step) : Shows d a :=
  (shows_iff a).mpr (.inl (.inr ⟨step,inside,own⟩))

end

-- What the factories build: only an AND or OR has children, only a witness a
-- signer.
structure FormedNode (node : CapabilityExpr) : Prop where
  leaf : node.kind ≠ .and → node.kind ≠ .or → node.children = []
  unsigned : node.kind ≠ .signatureWitness → node.signer = none

def Formed (cap : CapabilityExpr) : Prop := ∀ node ∈ nodes cap, FormedNode node

section
variable {d : Deferral} {a b cap : CapabilityExpr}

theorem formed_iff : Formed cap ↔ FormedNode cap ∧ ∀ child ∈ cap.children, Formed child := forall_nodes cap

theorem Formed.top (formed : Formed cap) : FormedNode cap := (formed_iff.mp formed).1

theorem formed_leaf (leaf : cap.children = []) (unsigned : cap.signer = none) : Formed cap := by
  rw [formed_iff,leaf]
  exact ⟨⟨fun _ _ => leaf,fun _ => unsigned⟩,fun _ member => absurd member not_mem_nil⟩

theorem Formed.restate (formed : Formed a) (kind : b.kind = a.kind) (children : b.children = a.children)
    (signer : b.signer = a.signer) :
    Formed b := by
  obtain ⟨top,under⟩ := formed_iff.mp formed
  rw [formed_iff,children]
  refine ⟨⟨?_,?_⟩,under⟩
  · rw [kind,children]
    exact top.leaf
  · rw [kind,signer]
    exact top.unsigned

theorem formed_structuralAnd (each : ∀ child ∈ children, Formed child) : Formed (.structuralAnd children) := by
  match children with
  | [] => exact formed_leaf rfl rfl
  | [child] => exact each child (mem_singleton_self child)
  | _ :: _ :: _ => exact formed_iff.mpr ⟨⟨fun other => absurd rfl other,fun _ => rfl⟩,each⟩

theorem formed_structuralOr (each : ∀ child ∈ children, Formed child) : Formed (.structuralOr children) := by
  match children with
  | [] => exact formed_leaf rfl rfl
  | [child] => exact each child (mem_singleton_self child)
  | _ :: _ :: _ => exact formed_iff.mpr ⟨⟨fun _ other => absurd rfl other,fun _ => rfl⟩,each⟩

theorem pair_formed (formedA : Formed a) (formedB : Formed b) : ∀ child ∈ [a,b], Formed child := by
  intro child member
  rcases mem_pair.mp member with rfl | rfl
  · exact formedA
  · exact formedB

theorem intersect_formed (formedA : Formed a) (formedB : Formed b) : Formed (intersect a b) := by
  have structural := formed_structuralAnd (pair_formed formedA formedB)
  have shape := intersected a b
  generalize intersect a b = result at shape ⊢
  cases shape with
  | openRight | boundRight => exact formedA.restate rfl rfl rfl
  | openLeft | boundLeft => exact formedB.restate rfl rfl rfl
  | finite =>
    cases intersectFinite_cases a b with
    | inl kept => rw [kept]; exact structural
    | inr folded => exact formed_leaf folded.children folded.signer
  | structural => exact structural
  | _ => exact formed_leaf rfl rfl

theorem union_formed (formedA : Formed a) (formedB : Formed b) : Formed (union a b) := by
  have structural := formed_structuralOr (pair_formed formedA formedB)
  have shape := joined a b
  generalize union a b = result at shape ⊢
  cases shape with
  | finite =>
    cases unionFinite_cases a b with
    | inl kept => rw [kept]; exact structural
    | inr folded => exact formed_leaf folded.children folded.signer
  | same => exact formedA
  | structural => exact structural
  | _ => exact formed_leaf rfl rfl

theorem negate_formed (formed : Formed a) : Formed (negate a) := by
  induction a using CapabilityExpr.tree_induction with
  | node a ih =>
    have under := (formed_iff.mp formed).2
    have each : ∀ child ∈ a.children.map negate, Formed child := by
      intro child member
      obtain ⟨source,inside,rfl⟩ := mem_map.mp member
      exact ih source inside (under source inside)
    cases kind : a.kind with
    | finiteSet => rw [negate_finite kind]; exact formed_leaf rfl rfl
    | cofiniteBlacklist => rw [negate_cofinite kind]; exact formed_leaf rfl rfl
    | externalCheckOnly => rw [negate_check kind]; exact formed_leaf rfl rfl
    | conditionalUniversal => rw [negate_open kind]; exact formed_leaf rfl rfl
    | thresholdGroup => rw [negate_threshold kind]; exact formed_leaf rfl rfl
    | signatureWitness => rw [negate_witness kind]; exact formed_leaf rfl rfl
    | unsupported => rw [negate_unsupported kind]; exact formed_leaf rfl rfl
    | and => rw [negate_and kind]; exact formed_structuralOr each
    | or => rw [negate_or kind]; exact formed_structuralAnd each

theorem FormedNode.own (formed : FormedNode a) (shown : Shows d a)
    (simple : a.kind ≠ .and ∧ a.kind ≠ .or ∧ a.kind ≠ .signatureWitness) :
    Own d a.toExprFields := by
  rw [shows_iff,formed.leaf simple.1 simple.2.1,formed.unsigned simple.2.2] at shown
  simpa using shown

theorem FormedNode.traced (formed : FormedNode a) (shown : Shows d a)
    (listing : a.kind = .finiteSet ∨ a.kind = .cofiniteBlacklist) :
    ∃ step ∈ a.trace, d ∈ stepDeferrals step := by
  cases listing with
  | inl kind => exact (formed.own shown (by simp [kind])).on_trace (by simp [kind])
  | inr kind => exact (formed.own shown (by simp [kind])).on_trace (by simp [kind])

def Buried (a b : ExprFields) : Prop :=
  a.subject = .bound ∧ b.subject = .root ∧ (a.kind = .signatureWitness ∨ a.kind = .and ∨ a.kind = .or)

theorem foldBound_shows_root (shown : Shows d a) : Shows d (foldBound a b) := by
  refine shown.restate rfl rfl (fun step inside => ?_) rfl rfl
  exact mem_append_left _ (mem_append_left _ inside)

theorem foldBound_shows_bound (waits : d.2 ≠ []) (formed : FormedNode b) (shown : Shows d b)
    (simple : b.kind ≠ .and ∧ b.kind ≠ .or ∧ b.kind ≠ .signatureWitness) : Shows d (foldBound a b) := by
  cases formed.own shown simple with
  | inl probe =>
    obtain ⟨step,inside,own⟩ := mem_deferralSteps waits probe.2
    have folded : step ∈ (foldBound a b).trace := by
      refine mem_append_right _ ?_
      rw [if_pos probe.1]
      exact inside
    exact shows_of_trace folded own
  | inr traced =>
    obtain ⟨step,inside,own⟩ := traced
    exact shows_of_trace
      (mem_append_left _ (mem_append_right _ (mem_carriedDeferrals (mem_singleton_self b) inside own))) own

-- An operand whose deferral the step hands on.
structure Hands (d : Deferral) (a b : CapabilityExpr) : Prop where
  shown : Shows d a
  closed : a.kind ≠ .conditionalUniversal
  visible : ¬ Buried a.toExprFields b.toExprFields

theorem Hands.simple (hands : Hands d a b) (bound : a.subject = .bound) (root : b.subject = .root) :
    a.kind ≠ .and ∧ a.kind ≠ .or ∧ a.kind ≠ .signatureWitness :=
  ⟨fun kind => hands.visible ⟨bound,root,.inr (.inl kind)⟩,fun kind => hands.visible ⟨bound,root,.inr (.inr kind)⟩,
      fun kind => hands.visible ⟨bound,root,.inl kind⟩⟩

section
variable (traced : (∃ step ∈ a.trace, d ∈ stepDeferrals step) ∨ ∃ step ∈ b.trace, d ∈ stepDeferrals step)
include traced

theorem Folded.shows (folded : Folded a b result) :
    Shows d result := by
  rcases traced with ⟨step,inside,own⟩ | ⟨step,inside,own⟩
  · exact shows_of_trace (by rw [folded.trace]; exact mem_append_left _ inside) own
  · exact shows_of_trace (by rw [folded.trace]; exact mem_append_right _ inside) own

theorem shows_carried (trace : result.trace = carriedDeferrals [a,b]) :
    Shows d result := by
  rcases traced with ⟨step,inside,own⟩ | ⟨step,inside,own⟩
  · exact shows_of_trace (by rw [trace]; exact mem_carriedDeferrals (by simp) inside own) own
  · exact shows_of_trace (by rw [trace]; exact mem_carriedDeferrals (a:=b) (by simp) inside own) own

end

theorem traced_pair (formedA : FormedNode a) (formedB : FormedNode b)
    (listingA : a.kind = .finiteSet ∨ a.kind = .cofiniteBlacklist)
    (listingB : b.kind = .finiteSet ∨ b.kind = .cofiniteBlacklist) (either : Shows d a ∨ Shows d b) :
    (∃ step ∈ a.trace, d ∈ stepDeferrals step) ∨ ∃ step ∈ b.trace, d ∈ stepDeferrals step := by
  cases either with
  | inl shown => exact .inl (formedA.traced shown listingA)
  | inr shown => exact .inr (formedB.traced shown listingB)

theorem intersect_shows (waits : d.2 ≠ []) (formedA : FormedNode a) (formedB : FormedNode b)
    (supportedA : a.kind ≠ .unsupported)
    (supportedB : b.kind ≠ .unsupported) (hands : Hands d a b ∨ Hands d b a) : Shows d (intersect a b) := by
  have either : Shows d a ∨ Shows d b := hands.imp Hands.shown Hands.shown
  have structural : Shows d (.structuralAnd [a,b]) := by
    cases either with
    | inl shown => exact shows_structuralAnd (by simp) shown
    | inr shown => exact shows_structuralAnd (a:=b) (by simp) shown
  have shape := intersected a b
  generalize intersect a b = result at shape ⊢
  cases shape with
  | unsupported either => exact absurd either (not_or.mpr ⟨supportedA,supportedB⟩)
  | openLeft _ _ anyone =>
    cases hands with
    | inl hands => exact absurd anyone hands.closed
    | inr hands => exact hands.shown.restate rfl rfl (fun _ => id) rfl rfl
  | openRight _ _ _ anyone =>
    cases hands with
    | inl hands => exact hands.shown.restate rfl rfl (fun _ => id) rfl rfl
    | inr hands => exact absurd anyone hands.closed
  | boundRight _ _ _ _ rootA boundB =>
    cases hands with
    | inl hands => exact foldBound_shows_root hands.shown
    | inr hands => exact foldBound_shows_bound waits formedB hands.shown (hands.simple boundB rootA)
  | boundLeft _ _ _ _ boundA rootB =>
    cases hands with
    | inl hands => exact foldBound_shows_bound waits formedA hands.shown (hands.simple boundA rootB)
    | inr hands => exact foldBound_shows_root hands.shown
  | finite _ kindA kindB =>
    cases intersectFinite_cases a b with
    | inl kept => rw [kept]; exact structural
    | inr folded => exact folded.shows (traced_pair formedA formedB (.inl kindA) (.inl kindB) either)
  | subtractRight _ kindA kindB =>
    exact (intersectFiniteBlacklist_folded a b).shows (traced_pair formedA formedB (.inl kindA) (.inr kindB) either)
  | subtractLeft _ kindA kindB =>
    exact (intersectFiniteBlacklist_folded b a).shows
      (traced_pair formedB formedA (.inl kindB) (.inr kindA) either.symm)
  | denied _ kindA kindB => exact shows_carried (traced_pair formedA formedB (.inr kindA) (.inr kindB) either) rfl
  | structural => exact structural

theorem union_shows (formedA : FormedNode a) (formedB : FormedNode b)
    (shown : Shows d a ∨ Shows d b ∧ b.kind ≠ .conditionalUniversal) : Shows d (union a b) := by
  have either : Shows d a ∨ Shows d b := shown.imp_right And.left
  have structural : Shows d (.structuralOr [a,b]) := by
    cases either with
    | inl shown => exact shows_structuralOr (by simp) shown
    | inr shown => exact shows_structuralOr (a:=b) (by simp) shown
  have shape := joined a b
  generalize union a b = result at shape ⊢
  cases shape with
  | finite _ kindA kindB =>
    cases unionFinite_cases a b with
    | inl kept => rw [kept]; exact structural
    | inr folded => exact folded.shows (traced_pair formedA formedB (.inl kindA) (.inl kindB) either)
  | addLeft _ kindA kindB => exact shows_carried (traced_pair formedA formedB (.inl kindA) (.inr kindB) either) rfl
  | addRight _ kindA kindB =>
    exact shows_carried (traced_pair formedB formedA (.inl kindB) (.inr kindA) either.symm) rfl
  | denied _ kindA kindB => exact shows_carried (traced_pair formedA formedB (.inr kindA) (.inr kindB) either) rfl
  | same _ anyone =>
    cases shown with
    | inl shown => exact shown
    | inr shown => exact absurd anyone shown.2
  | structural => exact structural

-- The probes that still stand as leaves under ANDs and ORs.
def standing (cap : CapabilityExpr) : List ExternalCheck :=
  (nodes cap).filterMap fun node => if node.kind = .externalCheckOnly then node.check else none

theorem mem_standing : p ∈ standing cap ↔ ∃ node ∈ nodes cap, node.kind = .externalCheckOnly ∧ node.check = some p := by
  simp only [standing,mem_filterMap,Option.ite_none_right_eq_some]

theorem negate_shows (waits : d.2 ≠ []) (formed : Formed a) (member : p ∈ standing a)
    (shown : d ∈ checkDeferrals (some p)) : Shows d (negate a) := by
  induction a using CapabilityExpr.tree_induction with
  | node a ih =>
    obtain ⟨top,under⟩ := formed_iff.mp formed
    rw [mem_standing,exists_nodes] at member
    rcases member with ⟨kind,check⟩ | ⟨child,inside,below⟩
    · obtain ⟨step,traced,own⟩ := mem_deferralSteps waits shown
      rw [negate_check kind]
      refine shows_of_trace ?_ own
      change step ∈ deferralSteps a.check
      rw [check]
      exact traced
    · have lower := ih child inside (under child inside) (mem_standing.mpr below)
      have flipped : negate child ∈ a.children.map negate := mem_map_of_mem inside
      by_cases conjunction : a.kind = .and
      · rw [negate_and conjunction]
        exact shows_structuralOr flipped lower
      · by_cases disjunction : a.kind = .or
        · rw [negate_or disjunction]
          exact shows_structuralAnd flipped lower
        · rw [top.leaf conjunction disjunction] at inside
          cases inside

end

theorem negate_closed (a : CapabilityExpr) : (negate a).kind ≠ .conditionalUniversal := by
  induction a using CapabilityExpr.tree_induction with
  | node a ih =>
    cases kind : a.kind with
    | finiteSet => rw [negate_finite kind]; nofun
    | cofiniteBlacklist => rw [negate_cofinite kind]; nofun
    | externalCheckOnly => rw [negate_check kind]; nofun
    | conditionalUniversal => rw [negate_open kind]; nofun
    | thresholdGroup => rw [negate_threshold kind]; nofun
    | signatureWitness => rw [negate_witness kind]; nofun
    | unsupported => rw [negate_unsupported kind]; nofun
    | and =>
      rw [negate_and kind]
      match under : a.children with
      | [] => nofun
      | [child] => exact ih child (by simp [under])
      | _ :: _ :: _ => nofun
    | or =>
      rw [negate_or kind]
      match under : a.children with
      | [] => nofun
      | [child] => exact ih child (by simp [under])
      | _ :: _ :: _ => nofun

-- A probe anywhere in a leaf: on it, under it or in its signer.
inductive HasProbe (p : ExternalCheck) : CapabilityExpr → Prop
  | here (kind : cap.kind = .externalCheckOnly) (check : cap.check = some p) : HasProbe p cap
  | child (member : child ∈ cap.children) (below : HasProbe p child) : HasProbe p cap
  | signer (held : cap.signer = some signer) (below : HasProbe p signer) : HasProbe p cap

theorem HasProbe.shows (probe : HasProbe p cap) (shown : d ∈ checkDeferrals (some p)) : Shows d cap := by
  induction probe with
  | here kind check => exact (shows_iff _).mpr (.inl (.inl ⟨kind,by rw [check]; exact shown⟩))
  | child member _ ih => exact (shows_iff _).mpr (.inr (.inl ⟨_,member,ih⟩))
  | signer held _ ih => exact (shows_iff _).mpr (.inr (.inr ⟨_,held,ih⟩))

namespace Composition

-- The way of a probe from its leaf to the result.
def Passes (p : ExternalCheck) : Composition → Prop
  | leaf cap => HasProbe p cap
  | intersect x y =>
    x.value.kind ≠ .unsupported ∧ y.value.kind ≠ .unsupported ∧
      ((x.Passes p ∧ ¬ Buried x.value.toExprFields y.value.toExprFields) ∨
          (y.Passes p ∧ ¬ Buried y.value.toExprFields x.value.toExprFields))
  | union x y => x.Passes p ∨ y.Passes p
  | negate x => x.Passes p ∧ p ∈ standing x.value

section
variable {p : ExternalCheck} {x : Composition}

theorem formed_value (formed : ∀ leaf ∈ x.leaves, Formed leaf) : Formed x.value := by
  induction x with
  | leaf cap => exact formed cap (mem_singleton_self cap)
  | intersect x y left right =>
    obtain ⟨formedX,formedY⟩ := forall_mem_append.mp formed
    exact intersect_formed (left formedX) (right formedY)
  | union x y left right =>
    obtain ⟨formedX,formedY⟩ := forall_mem_append.mp formed
    exact union_formed (left formedX) (right formedY)
  | negate x ih => exact negate_formed (ih formed)

theorem closed_of_passes (formed : ∀ leaf ∈ x.leaves, Formed leaf) (passes : x.Passes p) :
    x.value.kind ≠ .conditionalUniversal := by
  induction x with
  | leaf cap =>
    intro (anyone : cap.kind = .conditionalUniversal)
    have top := (formed cap (mem_singleton_self cap)).top
    cases passes with
    | here kind => exact absurd (kind.symm.trans anyone) nofun
    | child member =>
      rw [top.leaf (by simp [anyone]) (by simp [anyone])] at member
      cases member
    | signer held =>
      rw [top.unsigned (by simp [anyone])] at held
      cases held
  | intersect x y left right =>
    obtain ⟨formedX,formedY⟩ := forall_mem_append.mp formed
    obtain ⟨_,_,either⟩ := passes
    have closed : x.value.kind ≠ .conditionalUniversal ∨ y.value.kind ≠ .conditionalUniversal :=
      either.imp (fun passed => left formedX passed.1) fun passed => right formedY passed.1
    have shape := intersected x.value y.value
    rw [value]
    generalize Capability.intersect x.value y.value = result at shape ⊢
    cases shape with
    | openLeft _ _ anyone => exact closed.resolve_left (not_not.mpr anyone)
    | openRight _ _ other _ => exact other
    | boundRight _ _ other _ => exact other
    | boundLeft _ _ _ other => exact other
    | finite =>
      cases intersectFinite_cases x.value y.value with
      | inl kept => rw [kept]; nofun
      | inr folded => rw [folded.kind]; nofun
    | _ => nofun
  | union x y left right =>
    obtain ⟨formedX,formedY⟩ := forall_mem_append.mp formed
    have closed : x.value.kind ≠ .conditionalUniversal ∨ y.value.kind ≠ .conditionalUniversal :=
      passes.imp (left formedX) (right formedY)
    have shape := joined x.value y.value
    rw [value]
    generalize Capability.union x.value y.value = result at shape ⊢
    cases shape with
    | finite =>
      cases unionFinite_cases x.value y.value with
      | inl kept => rw [kept]; nofun
      | inr folded => rw [folded.kind]; nofun
    | same anyX anyY => exact absurd closed (not_or.mpr ⟨not_not.mpr anyX,not_not.mpr anyY⟩)
    | _ => nofun
  | negate x ih => exact negate_closed x.value

theorem passes_shows (waits : d.2 ≠ []) (probe : d ∈ checkDeferrals (some p)) (formed : ∀ leaf ∈ x.leaves, Formed leaf)
    (passes : x.Passes p) : Shows d x.value := by
  induction x with
  | leaf cap => exact HasProbe.shows passes probe
  | intersect x y left right =>
    obtain ⟨formedX,formedY⟩ := forall_mem_append.mp formed
    obtain ⟨supportedX,supportedY,either⟩ := passes
    refine intersect_shows waits (formed_value formedX).top (formed_value formedY).top supportedX supportedY ?_
    rcases either with ⟨passed,visible⟩ | ⟨passed,visible⟩
    · exact .inl ⟨left formedX passed,closed_of_passes formedX passed,visible⟩
    · exact .inr ⟨right formedY passed,closed_of_passes formedY passed,visible⟩
  | union x y left right =>
    obtain ⟨formedX,formedY⟩ := forall_mem_append.mp formed
    refine union_shows (formed_value formedX).top (formed_value formedY).top ?_
    cases passes with
    | inl passed => exact .inl (left formedX passed)
    | inr passed => exact .inr ⟨right formedY passed,closed_of_passes formedY passed⟩
  | negate x ih => exact negate_shows waits (formed_value formed) passes.2 probe

theorem deferral_visible {address : String} (formed : ∀ leaf ∈ x.leaves, Formed leaf)
    (marked : p.extra.deferredPendingIndex = true)
    (topics : p.extra.deferredTopic0s ≠ []) (target : p.targetAddress = some address)
    (wellFormed : isAddress address = true)
    (passes : x.Passes p) :
    (lower address,Sorted.sortedSet (p.extra.deferredTopic0s.map lower)) ∈ iterDeferrals (capabilityToDict x.value) :=
    by
  refine passes_shows ?_ ?_ formed passes
  · intro none
    obtain ⟨topic,member⟩ := exists_mem_of_ne_nil _ topics
    have kept := (Sorted.mem_sortedSet (p.extra.deferredTopic0s.map lower) (lower topic)).mpr (mem_map_of_mem member)
    rw [show Sorted.sortedSet (p.extra.deferredTopic0s.map lower) = [] from none] at kept
    exact absurd kept not_mem_nil
  · simp [checkDeferrals,deferral,marked,target,wellFormed]

def roleTable : String := "0x00000000000000000000000000000000000000aa"

-- A membership probe that waits for its table to be indexed.
def coldProbe : ExternalCheck where
  targetAddress := some roleTable
  targetCallSelector := none
  extra := {deferredPendingIndex:=true,deferredTopic0s:=["0x01"]}

theorem unsupported_swallows_deferral :
    (leaf (.externalCheckOnly coldProbe)).Passes coldProbe ∧
      iterDeferrals
      (capabilityToDict (intersect (leaf (.unsupported "opaque_gate")) (leaf (.externalCheckOnly coldProbe))).value) =
      [] :=
  ⟨.here rfl rfl,rfl⟩

def keepersOrUndenied : Composition := union (leaf (.finiteSet [])) (negate (leaf (.externalCheckOnly coldProbe)))

theorem deferral_visible_undenied :
    (lower roleTable,Sorted.sortedSet (["0x01"].map lower)) ∈ iterDeferrals
    (capabilityToDict keepersOrUndenied.value) := by
  refine deferral_visible (p:=coldProbe) ?_ rfl nofun rfl (by decide +kernel) ?_
  · intro cap member
    rcases mem_pair.mp member with rfl | rfl
    · exact formed_leaf rfl rfl
    · exact formed_leaf rfl rfl
  · exact .inr ⟨.here rfl rfl,mem_singleton_self coldProbe⟩

end

end Composition

end Psat.Capability
