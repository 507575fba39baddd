import Psat.Capability.Complement

namespace Psat.Capability
open Psat.General Psat.General.Families List
open Text (lower)

inductive ProbeResult
  | yes
  | no
  | unknown
deriving DecidableEq

structure ProbeAnswer where
  result : ProbeResult
  reason : String
  probeTarget : Option String := none
  probeSelector : Option String := none
  capabilityUnsupportedReason : Option String := none
deriving DecidableEq

def probeFinite (inSet : Bool) : MembershipQuality → ProbeAnswer
  | .exact => ⟨if inSet then .yes else .no,"finite_set_exact",none,none,none⟩
  | .lowerBound =>
    if inSet then {result:=.yes,reason:="finite_set_lower_bound"} else {result:=.unknown,reason:="lower_bound_absent"}
  | .upperBound =>
    if inSet then {result:=.unknown,reason:="upper_bound_present"} else {result:=.no,reason:="finite_set_upper_bound"}

def probeAnd (statuses : List ProbeResult) : ProbeAnswer :=
  if ∀ status ∈ statuses, status = .yes then {result:=.yes,reason:="and_all_yes"}
  else if .no ∈ statuses then {result:=.no,reason:="and_any_no"}
  else {result:=.unknown,reason:="and_some_unknown"}

def probeOr (statuses : List ProbeResult) : ProbeAnswer :=
  if .yes ∈ statuses then {result:=.yes,reason:="or_any_yes"}
  else if ∀ status ∈ statuses, status = .no then {result:=.no,reason:="or_all_no"}
  else {result:=.unknown,reason:="or_some_unknown"}

mutual

def resolveInCapability (member : String) : CapabilityExpr → ProbeAnswer
  | ⟨fields,_,children⟩ =>
    match fields.kind with
    | .finiteSet => probeFinite (lower member ∈ fields.listed.map lower) fields.membershipQuality
    | .thresholdGroup =>
      if lower member ∈ (fields.threshold.getD (0,[])).2.map lower then {result:=.yes,reason:="threshold_group_signer"}
      else {result:=.no,reason:="threshold_group_non_signer"}
    | .cofiniteBlacklist =>
      if lower member ∈ fields.denied.map lower then {result:=.no,reason:="cofinite_blacklisted"}
      else {result:=.yes,reason:="cofinite_not_blacklisted"}
    | .externalCheckOnly =>
      {result:=.unknown,reason:="external_check_only",probeTarget:=fields.check.bind (·.targetAddress),
         probeSelector:=fields.check.bind (·.targetCallSelector)}
    | .signatureWitness => {result:=.unknown,reason:="signature_witness"}
    | .unsupported =>
      {result:=.unknown,reason:="capability_unsupported",capabilityUnsupportedReason:=fields.unsupportedReason}
    | .and => probeAnd (resolveAll member children)
    | .or => probeOr (resolveAll member children)
    | .conditionalUniversal => {result:=.yes,reason:="conditional_universal"}

def resolveAll (member : String) : List CapabilityExpr → List ProbeResult
  | [] => []
  | child :: rest => (resolveInCapability member child).result :: resolveAll member rest

end

theorem mem_resolveAll : status ∈ resolveAll member children ↔ ∃ child ∈ children,
    (resolveInCapability member child).result = status := by
  induction children with
  | nil => simp [resolveAll]
  | cons child rest ih => simp [resolveAll,ih,eq_comm]

-- A definite answer speaks of every caller set the capability leaves possible.
def ProbeSound (member : String) (cap : CapabilityExpr) : Prop :=
  ((resolveInCapability member cap).result = .yes → ∀ callers ∈ admits cap, lower member ∈ callers) ∧
      ((resolveInCapability member cap).result = .no → ∀ callers ∈ admits cap, lower member ∉ callers)

theorem lowered_map {values : List String} (lowered : ∀ value ∈ values, lower value = value) :
    values.map lower = values := by
  rw [map_congr_left lowered,map_id']

theorem probe_finite (kind : cap.kind = .finiteSet) (lists : Lists cap) : ProbeSound member cap := by
  have answer : resolveInCapability member cap = probeFinite (lower member ∈ cap.listed) cap.membershipQuality := by
    have same := lowered_map lists.listed
    cases cap
    simp only at kind
    simp [resolveInCapability,kind,same]
  rw [ProbeSound,answer,admits_finite kind]
  by_cases listed : lower member ∈ cap.listed
  · cases cap.membershipQuality with
    | exact => simp [probeFinite,readMembers,listed]
    | lowerBound => simpa [probeFinite,readMembers,listed] using fun callers above => above listed
    | upperBound => simp [probeFinite,listed]
  · cases cap.membershipQuality with
    | exact => simp [probeFinite,readMembers,listed]
    | lowerBound => simp [probeFinite,listed]
    | upperBound => simpa [probeFinite,readMembers,listed] using fun callers below inside => listed (below inside)

theorem probe_denied (kind : cap.kind = .cofiniteBlacklist) (lists : Lists cap) :
    (resolveInCapability member cap).result = if lower member ∈ cap.denied then .no else .yes := by
  have same := lowered_map lists.denied
  cases cap
  simp only at kind
  simp only [resolveInCapability,kind,same]
  split <;> rfl

theorem probe_cofinite (kind : cap.kind = .cofiniteBlacklist) (lists : Lists cap)
    (stated : cap.blacklistQuality ≠ .lowerBound) :
    ProbeSound member cap := by
  rw [ProbeSound,probe_denied kind lists,admits_cofinite kind]
  by_cases denied : lower member ∈ cap.denied
  · simpa [denied] using fun callers possible inside => Set.disjoint_left.mp
      (disjoint_of_readDenied possible) inside denied
  · cases quality : cap.blacklistQuality with
    | exact => simp [readDenied,denied]
    | lowerBound => exact absurd quality stated
    | upperBound => simp [readDenied]

theorem probe_and (kind : cap.kind = .and) (sound : ∀ child ∈ cap.children, ProbeSound member child) :
    ProbeSound member cap := by
  have answer : resolveInCapability member cap = probeAnd (resolveAll member cap.children) := by
    cases cap
    simp only at kind
    simp [resolveInCapability,kind]
  rw [ProbeSound,answer,admits_and kind]
  unfold probeAnd
  split
  · rename_i all
    refine ⟨fun _ => mem_of_meets fun family member => ?_,by simp⟩
    obtain ⟨child,inside,rfl⟩ := mem_map.mp member
    exact (sound child inside).1 (all _ (mem_resolveAll.mpr ⟨child,inside,rfl⟩))
  · split
    · rename_i some
      obtain ⟨child,inside,no⟩ := mem_resolveAll.mp some
      exact ⟨by simp,fun _ => notMem_of_meets (mem_map_of_mem inside) ((sound child inside).2 no)⟩
    · exact ⟨by simp,by simp⟩

theorem probe_or (kind : cap.kind = .or) (sound : ∀ child ∈ cap.children, ProbeSound member child) :
    ProbeSound member cap := by
  have answer : resolveInCapability member cap = probeOr (resolveAll member cap.children) := by
    cases cap
    simp only at kind
    simp [resolveInCapability,kind]
  rw [ProbeSound,answer,admits_or kind]
  unfold probeOr
  split
  · rename_i some
    obtain ⟨child,inside,yes⟩ := mem_resolveAll.mp some
    exact ⟨fun _ => mem_of_joins (mem_map_of_mem inside) ((sound child inside).1 yes),by simp⟩
  · split
    · rename_i all
      refine ⟨by simp,fun _ => notMem_of_joins fun family member => ?_⟩
      obtain ⟨child,inside,rfl⟩ := mem_map.mp member
      exact (sound child inside).2 (all _ (mem_resolveAll.mpr ⟨child,inside,rfl⟩))
    · exact ⟨by simp,by simp⟩

theorem probe_tree (tree : SetTree cap)
    (stated : ∀ node ∈ nodes cap, node.kind = .cofiniteBlacklist → node.blacklistQuality ≠ .lowerBound) :
    ProbeSound member cap := by
  induction tree with
  | listing lists _ =>
    cases lists.kind with
    | inl finite => exact probe_finite finite lists
    | inr cofinite => exact probe_cofinite cofinite lists (stated _ (self_mem_nodes _) cofinite)
  | and kind _ ih =>
    exact probe_and kind fun child inside => ih child inside fun node under => stated node
      (mem_nodes.mpr (.inr ⟨child,inside,under⟩))
  | or kind _ ih =>
    exact probe_or kind fun child inside => ih child inside fun node under => stated node
      (mem_nodes.mpr (.inr ⟨child,inside,under⟩))

theorem exists_unlisted (values : List String) : ∃ address, lower address ∉ values := by
  have bounded : ∃ long, ∀ value ∈ values, value.toList.length < long := by
    induction values with
    | nil => exact ⟨0,by simp⟩
    | cons first rest ih =>
      obtain ⟨long,all⟩ := ih
      refine ⟨first.toList.length + 1 + long,forall_mem_cons.mpr ⟨by omega,fun value member => ?_⟩⟩
      have below := all value member
      omega
  obtain ⟨long,all⟩ := bounded
  refine ⟨String.ofList (replicate long 'a'),fun listed => ?_⟩
  have short := all _ listed
  simp [lower] at short

-- At a lower-bound denylist nobody may be let in, yet an unlisted caller is
-- answered "yes".
theorem probe_sound_iff (tree : SetTree cap) : (∀ node ∈ nodes cap, ∀ member, ProbeSound member node) ↔
    ∀ node ∈ nodes cap, node.kind = .cofiniteBlacklist → node.blacklistQuality ≠ .lowerBound := by
  constructor
  · intro sound node inside cofinite lower
    cases tree.node node inside with
    | listing lists _ =>
      obtain ⟨address,unlisted⟩ := exists_unlisted node.denied
      have nobody : (∅ : Set String) ∈ admits node := by
        rw [admits_cofinite cofinite,lower]
        exact Set.empty_disjoint _
      have yes : (resolveInCapability address node).result = .yes := by rw [probe_denied cofinite lists,if_neg unlisted]
      exact (sound node inside address).1 yes ∅ nobody
    | and kind _ => cases kind.symm.trans cofinite
    | or kind _ => cases kind.symm.trans cofinite
  · intro stated node inside member
    exact probe_tree (tree.node node inside) fun deeper below => stated deeper (nodes_trans inside below)

-- Known to be denied: one address, and possibly others.
def partlyDenied : CapabilityExpr := {CapabilityExpr.cofiniteBlacklist ["0xaa"] with blacklistQuality:=.lowerBound}

theorem partlyDenied_answers_yes : (resolveInCapability "0xbb" partlyDenied).result = .yes ∧
    ({"0xcc"} : Set String) ∈ admits partlyDenied ∧
    lower "0xbb" ∉ ({"0xcc"} : Set String) := by
  refine ⟨by decide +kernel,?_,by decide +kernel⟩
  rw [admits_cofinite rfl]
  exact Set.disjoint_singleton_left.mpr (by decide +kernel)

def keepersAllowed : CapabilityExpr :=
  .structuralAnd [{CapabilityExpr.finiteSet ["0xaa","0xbb"] with membershipQuality:=.upperBound},
    .cofiniteBlacklist ["0xbb"]]

theorem keepersAllowed_probed : SetTree keepersAllowed ∧ ∀ node ∈ nodes keepersAllowed, ∀ member,
    ProbeSound member node := by
  have tree : SetTree keepersAllowed := by
    refine .and rfl fun child inside => ?_
    rcases mem_pair.mp inside with rfl | rfl
    · exact .listing ⟨.inl rfl,canon_lowered _,fun _ none => absurd none not_mem_nil⟩ rfl
    · exact .listing (lists_cofiniteBlacklist _) rfl
  refine ⟨tree,(probe_sound_iff tree).mpr ?_⟩
  simp [keepersAllowed,CapabilityExpr.structuralAnd,nodes,nodesAll,CapabilityExpr.finiteSet,
    CapabilityExpr.cofiniteBlacklist]

end Psat.Capability
