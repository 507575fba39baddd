import Psat.Capability.Admits

namespace Psat.Capability
open Psat.General Psat.General.Families

-- Subtracting a denylist keeps the quality of the members alone.
theorem readMembers_diff (bounded : qa ≠ .upperBound → qb = .lowerBound → L ⊆ M)
    (inA : A ∈ readMembers L qa) (inB : B ∈ readDenied M qb) : A ∩ B ∈ readMembers (L \ M) qa := by
  cases qa with
  | exact =>
    rw [Set.mem_singleton_iff.mp inA]
    cases qb with
    | exact => rw [Set.mem_singleton_iff.mp inB]; rfl
    | lowerBound =>
      have inside : L ⊆ M := bounded (by simp) rfl
      rw [readMembers,Set.mem_singleton_iff,Set.sdiff_eq_empty.mpr inside,←Set.disjoint_iff_inter_eq_empty]
      exact (disjoint_of_readDenied inB).symm.mono_left inside
    | upperBound => exact inB.elim
  | lowerBound =>
    cases qb with
    | exact => rw [Set.mem_singleton_iff.mp inB]; exact Set.inter_subset_inter_left Mᶜ inA
    | lowerBound =>
      have inside : L ⊆ M := bounded (by simp) rfl
      rw [Set.sdiff_eq_empty.mpr inside]
      exact Set.empty_subset _
    | upperBound => exact inB.elim
  | upperBound =>
    intro caller both
    exact ⟨inA both.1,fun denied => Set.disjoint_left.mp (disjoint_of_readDenied inB) both.2 denied⟩

theorem readMembers_diff_iff : (∀ A ∈ readMembers L qa, ∀ B ∈ readDenied M qb, A ∩ B ∈ readMembers (L \ M) qa) ↔
    (qa ≠ .upperBound → qb = .lowerBound → L ⊆ M) := by
  constructor
  · intro sound atLeast excluded
    subst excluded
    -- Nobody at all is one of the sets such a denylist leaves possible.
    have listed : L ∈ readMembers L qa := by
      cases qa with
      | exact => rfl
      | lowerBound => exact Set.Subset.rfl
      | upperBound => exact absurd rfl atLeast
    have nobody : (∅ : Set String) ∈ readDenied M .lowerBound := Set.empty_disjoint M
    have met := sound L listed ∅ nobody
    rw [Set.inter_empty] at met
    rw [←Set.sdiff_eq_empty]
    cases qa with
    | exact => exact (Set.mem_singleton_iff.mp met).symm
    | lowerBound => exact Set.subset_empty_iff.mp met
    | upperBound => exact absurd rfl atLeast
  · intro bounded A inA B inB
    exact readMembers_diff bounded inA inB

theorem readDenied_diff (lower : qa = .lowerBound → qb ≠ .upperBound → M ⊆ L)
    (upper : qa = .upperBound → qb = .exact → Disjoint M L)
    (inA : A ∈ readMembers L qa) (inB : B ∈ readDenied M qb) : A ∪ B ∈ readDenied (M \ L) qb := by
  have away : Disjoint B (M \ L) := (disjoint_of_readDenied inB).mono_right Set.sdiff_subset
  cases qb with
  | exact =>
    rw [Set.mem_singleton_iff.mp inB,readDenied,Set.mem_singleton_iff]
    cases qa with
    | exact =>
      rw [Set.mem_singleton_iff.mp inA,Set.sdiff_eq,Set.compl_inter,compl_compl,Set.union_comm]
    | lowerBound =>
      have inside : M ⊆ L := lower rfl (by simp)
      rw [Set.sdiff_eq_empty.mpr inside,Set.compl_empty,Set.eq_univ_iff_forall]
      intro caller
      by_cases denied : caller ∈ M
      · exact .inl (inA (inside denied))
      · exact .inr denied
    | upperBound =>
      have apart : Disjoint M L := upper rfl rfl
      rw [sdiff_eq_left.mpr apart,Set.union_eq_right]
      intro caller member denied
      exact Set.disjoint_left.mp apart denied (inA member)
  | lowerBound =>
    refine Set.disjoint_union_left.mpr ⟨?_,away⟩
    cases qa with
    | exact => rw [Set.mem_singleton_iff.mp inA]; exact Set.disjoint_sdiff_right
    | lowerBound =>
      rw [Set.sdiff_eq_empty.mpr (lower rfl (by simp))]
      exact Set.disjoint_empty A
    | upperBound => exact Set.disjoint_sdiff_right.mono_left inA
  | upperBound => exact inB.elim

theorem readDenied_diff_iff : (∀ A ∈ readMembers L qa, ∀ B ∈ readDenied M qb, A ∪ B ∈ readDenied (M \ L) qb) ↔
    (qa = .lowerBound → qb ≠ .upperBound → M ⊆ L) ∧ (qa = .upperBound → qb = .exact → Disjoint M L) := by
  constructor
  · intro sound
    have kept : qb ≠ .upperBound → Mᶜ ∈ readDenied M qb := by
      intro stated
      cases qb with
      | exact => rfl
      | lowerBound => exact disjoint_compl_left
      | upperBound => exact absurd rfl stated
    constructor
    · rintro rfl stated
      -- Everyone is one of the sets a lower bound leaves possible.
      have joined := sound Set.univ (Set.subset_univ L) Mᶜ (kept stated)
      rw [Set.univ_union] at joined
      rw [←Set.sdiff_eq_empty]
      exact Set.univ_disjoint.mp (disjoint_of_readDenied joined)
    · rintro rfl rfl
      have joined := sound ∅ (Set.empty_subset L) Mᶜ (kept (by simp))
      rw [Set.empty_union,readDenied,Set.mem_singleton_iff,compl_inj_iff] at joined
      exact sdiff_eq_left.mp joined.symm
  · intro bounded A inA B inB
    exact readDenied_diff bounded.1 bounded.2 inA inB

section
variable {a b finite blacklist : CapabilityExpr}

theorem canon_twice (lowered : ∀ value ∈ values, Text.lower value = value) :
    {address | address ∈ canonAddresses (canonAddresses values)} = {address | address ∈ values} := by
  ext address
  exact (mem_canon_lowered (canon_lowered values) address).trans (mem_canon_lowered lowered address)

theorem filter_lowered {values : List String} (lowered : ∀ value ∈ values, Text.lower value = value) :
    ∀ value ∈ values.filter keep, Text.lower value = value :=
  fun value member => lowered value (List.mem_of_mem_filter member)

theorem intersectFinite_admits (listsA : Lists a) (finiteA : a.kind = .finiteSet) (finiteB : b.kind = .finiteSet)
    (inA : A ∈ admits a) (inB : B ∈ admits b) : A ∩ B ∈ admits (intersectFinite a b) := by
  have structural : A ∩ B ∈ admits (.structuralAnd [a,b]) := by
    exact inter_mem_meets inA inB
  unfold intersectFinite
  cases met : intersectQuality a.membershipQuality b.membershipQuality with
  | none => exact structural
  | some quality =>
    simp only
    split
    · exact structural
    · rw [admits_finite finiteA] at inA
      rw [admits_finite finiteB] at inB
      change A ∩ B ∈ readMembers
        {address | address ∈ canonAddresses (canonAddresses (a.listed.filter (· ∈ b.listed)))} quality
      have common : {address | address ∈ canonAddresses (canonAddresses (a.listed.filter (· ∈ b.listed)))} =
        {address | address ∈ a.listed} ∩ {address | address ∈ b.listed} := by
        rw [canon_twice (filter_lowered listsA.listed)]
        ext address
        simp
      rw [common]
      exact readMembers_inter met inA inB

theorem unionFinite_admits (listsA : Lists a) (listsB : Lists b) (finiteA : a.kind = .finiteSet)
    (finiteB : b.kind = .finiteSet)
    (inA : A ∈ admits a) (inB : B ∈ admits b) : A ∪ B ∈ admits (unionFinite a b) := by
  unfold unionFinite
  cases met : unionQuality a.membershipQuality b.membershipQuality with
  | none =>
    exact union_mem_joins inA inB
  | some quality =>
    rw [admits_finite finiteA] at inA
    rw [admits_finite finiteB] at inB
    change A ∪ B ∈ readMembers {address | address ∈ canonAddresses (canonAddresses (a.listed ++ b.listed))} quality
    have merged : {address | address ∈ canonAddresses (canonAddresses (a.listed ++ b.listed))} =
      {address | address ∈ a.listed} ∪ {address | address ∈ b.listed} := by
      rw [canon_twice (List.forall_mem_append.mpr ⟨listsA.listed,listsB.listed⟩)]
      ext address
      simp
    rw [merged]
    exact readMembers_union met inA inB

theorem admits_intersectFiniteBlacklist (lists : Lists finite) : admits (intersectFiniteBlacklist finite blacklist) =
    readMembers
    ({address | address ∈ finite.listed} \ {address | address ∈ blacklist.denied}) finite.membershipQuality := by
  change readMembers {address | address ∈ canonAddresses (canonAddresses (finite.listed.filter (· ∉ blacklist.denied)))}
    finite.membershipQuality = _
  rw [canon_twice (filter_lowered lists.listed)]
  congr 1
  ext address
  simp

theorem admits_unionFiniteBlacklist (lists : Lists blacklist) : admits (unionFiniteBlacklist finite blacklist) =
    readDenied
    ({address | address ∈ blacklist.denied} \ {address | address ∈ finite.listed}) blacklist.blacklistQuality := by
  change readDenied {address | address ∈ canonAddresses (canonAddresses (blacklist.denied.filter (· ∉ finite.listed)))}
    blacklist.blacklistQuality = _
  rw [canon_twice (filter_lowered lists.denied)]
  congr 1
  ext address
  simp

theorem admits_combineBlacklists (lowered : ∀ value ∈ denied, Text.lower value = value) :
    admits (combineBlacklists (canonAddresses denied) a b) =
      readDenied {address | address ∈ denied} (combineBlacklistQuality a.blacklistQuality b.blacklistQuality) := by
  rw [admits_cofinite rfl,←canon_twice lowered]
  rfl

-- A set that states at least its members, cut by a denylist that may exclude more than it lists.
def Overstated (finite blacklist : ExprFields) : Prop :=
  finite.kind = .finiteSet ∧ blacklist.kind = .cofiniteBlacklist ∧
    finite.membershipQuality ≠ .upperBound ∧ blacklist.blacklistQuality = .lowerBound ∧
      ∃ address ∈ finite.listed, address ∉ blacklist.denied

theorem subtraction_admits_iff (finite : a.kind = .finiteSet) (cofinite : b.kind = .cofiniteBlacklist)
    (lists : Lists a) :
    (∀ A ∈ admits a, ∀ B ∈ admits b, A ∩ B ∈ admits (intersectFiniteBlacklist a b)) ↔
    ¬ Overstated a.toExprFields b.toExprFields := by
  rw [admits_finite finite,admits_cofinite cofinite,admits_intersectFiniteBlacklist lists,readMembers_diff_iff]
  constructor
  · rintro covered ⟨_,_,atLeast,excluded,address,member,left⟩
    exact left (covered atLeast excluded member)
  · intro stated atLeast excluded address member
    by_contra left
    exact stated ⟨finite,cofinite,atLeast,excluded,address,member,left⟩

theorem not_overstated_of_kind (other : a.kind ≠ .finiteSet ∨ b.kind ≠ .cofiniteBlacklist) :
    ¬ Overstated a.toExprFields b.toExprFields := by
  rintro ⟨finite,cofinite,_⟩
  cases other with
  | inl differs => exact differs finite
  | inr differs => exact differs cofinite

theorem intersect_admits_iff (listsA : Lists a) (listsB : Lists b) (same : a.subject = b.subject) :
    (∀ A ∈ admits a, ∀ B ∈ admits b, A ∩ B ∈ admits (intersect a b)) ↔
      ¬ Overstated a.toExprFields b.toExprFields ∧ ¬ Overstated b.toExprFields a.toExprFields := by
  rcases listsA.kind with kindA | kindA <;> rcases listsB.kind with kindB | kindB
  · have met : intersect a b = intersectFinite a b := by simp [intersect,kindA,kindB,same]
    rw [met]
    refine iff_of_true (fun A inA B inB => intersectFinite_admits listsA kindA kindB inA inB) ⟨?_,?_⟩
    · exact not_overstated_of_kind (.inr (by simp [kindB]))
    · exact not_overstated_of_kind (.inr (by simp [kindA]))
  · have met : intersect a b = intersectFiniteBlacklist a b := by simp [intersect,kindA,kindB,same]
    rw [met,subtraction_admits_iff kindA kindB listsA]
    exact ⟨fun stated => ⟨stated,not_overstated_of_kind (.inl (by simp [kindB]))⟩,And.left⟩
  · have met : intersect a b = intersectFiniteBlacklist b a := by simp [intersect,kindA,kindB,same]
    rw [met]
    have turned := subtraction_admits_iff kindB kindA listsB
    constructor
    · intro sound
      refine ⟨not_overstated_of_kind (.inl (by simp [kindA])),turned.mp fun B inB A inA => ?_⟩
      rw [Set.inter_comm]
      exact sound A inA B inB
    · intro stated A inA B inB
      rw [Set.inter_comm]
      exact turned.mpr stated.2 B inB A inA
  · have met : intersect a b = combineBlacklists (canonAddresses (a.denied ++ b.denied)) a b := by
      simp [intersect,kindA,kindB,same]
    rw [met]
    refine iff_of_true (fun A inA B inB => ?_) ⟨?_,?_⟩
    · rw [admits_cofinite kindA] at inA
      rw [admits_cofinite kindB] at inB
      rw [admits_combineBlacklists (List.forall_mem_append.mpr ⟨listsA.denied,listsB.denied⟩)]
      have both : {address | address ∈ a.denied ++ b.denied} =
        {address | address ∈ a.denied} ∪ {address | address ∈ b.denied} := by
        ext address
        simp
      rw [both]
      exact readDenied_inter inA inB
    · exact not_overstated_of_kind (.inl (by simp [kindA]))
    · exact not_overstated_of_kind (.inl (by simp [kindB]))

-- A falsy probe is a denylist of unknown extent; the holder stays exact.
def keeper : CapabilityExpr := .finiteSet ["0xaa"]

def screen : CapabilityExpr := negate (.externalCheckOnly {targetAddress:=some "0xcc",targetCallSelector:=none})

theorem screened_keeper_exact : (intersect keeper screen).membershipQuality = .exact ∧
    ¬ ∀ A ∈ admits keeper, ∀ B ∈ admits screen, A ∩ B ∈ admits (intersect keeper screen) := by
  refine ⟨rfl,fun sound => ?_⟩
  have met : intersect keeper screen = intersectFiniteBlacklist keeper screen := rfl
  rw [met] at sound
  have stated := (subtraction_admits_iff rfl rfl (lists_finiteSet ["0xaa"])).mp sound
  have member : Text.lower "0xaa" ∈ keeper.listed := (mem_canonAddresses _ _).mpr ⟨"0xaa",List.mem_singleton_self _,rfl⟩
  exact stated ⟨rfl,rfl,nofun,rfl,_,member,List.not_mem_nil⟩

theorem intersect_admits_iff_keeper : Lists keeper ∧ ∀ A ∈ admits keeper, ∀ B ∈ admits (.cofiniteBlacklist ["0xbb"]),
    A ∩ B ∈ admits (intersect keeper (.cofiniteBlacklist ["0xbb"])) := by
  refine ⟨lists_finiteSet ["0xaa"],?_⟩
  exact (intersect_admits_iff (lists_finiteSet ["0xaa"]) (lists_cofiniteBlacklist ["0xbb"]) rfl).mpr
    ⟨fun stated => absurd stated.2.2.2.1 nofun,fun stated => absurd stated.1 nofun⟩

-- A denylist shrunk by members that may be fewer, or joined by more, than the
-- set lists.
def Overjoined (finite blacklist : ExprFields) : Prop :=
  finite.kind = .finiteSet ∧ blacklist.kind = .cofiniteBlacklist ∧
    ((finite.membershipQuality = .lowerBound ∧ blacklist.blacklistQuality ≠ .upperBound ∧
          ∃ address ∈ blacklist.denied, address ∉ finite.listed) ∨
        (finite.membershipQuality = .upperBound ∧ blacklist.blacklistQuality = .exact ∧
            ∃ address ∈ blacklist.denied, address ∈ finite.listed))

theorem addition_admits_iff (finite : a.kind = .finiteSet) (cofinite : b.kind = .cofiniteBlacklist) (lists : Lists b) :
    (∀ A ∈ admits a, ∀ B ∈ admits b, A ∪ B ∈ admits (unionFiniteBlacklist a b)) ↔
    ¬ Overjoined a.toExprFields b.toExprFields := by
  rw [admits_finite finite,admits_cofinite cofinite,admits_unionFiniteBlacklist lists,readDenied_diff_iff]
  constructor
  · rintro ⟨covered,apart⟩ ⟨_,_,⟨more,stated,address,denied,left⟩ | ⟨fewer,stated,address,denied,member⟩⟩
    · exact left (covered more stated denied)
    · exact Set.disjoint_left.mp (apart fewer stated) denied member
  · intro joined
    constructor
    · intro more stated address denied
      by_contra left
      exact joined ⟨finite,cofinite,.inl ⟨more,stated,address,denied,left⟩⟩
    · intro fewer stated
      rw [Set.disjoint_left]
      intro address denied member
      exact joined ⟨finite,cofinite,.inr ⟨fewer,stated,address,denied,member⟩⟩

theorem not_overjoined_of_kind (other : a.kind ≠ .finiteSet ∨ b.kind ≠ .cofiniteBlacklist) :
    ¬ Overjoined a.toExprFields b.toExprFields := by
  rintro ⟨finite,cofinite,_⟩
  cases other with
  | inl differs => exact differs finite
  | inr differs => exact differs cofinite

theorem union_admits_iff (listsA : Lists a) (listsB : Lists b) (same : a.subject = b.subject) :
    (∀ A ∈ admits a, ∀ B ∈ admits b, A ∪ B ∈ admits (union a b)) ↔
      ¬ Overjoined a.toExprFields b.toExprFields ∧ ¬ Overjoined b.toExprFields a.toExprFields := by
  rcases listsA.kind with kindA | kindA <;> rcases listsB.kind with kindB | kindB
  · have joined : union a b = unionFinite a b := by simp [union,kindA,kindB,same]
    rw [joined]
    refine iff_of_true (fun A inA B inB => unionFinite_admits listsA listsB kindA kindB inA inB) ⟨?_,?_⟩
    · exact not_overjoined_of_kind (.inr (by simp [kindB]))
    · exact not_overjoined_of_kind (.inr (by simp [kindA]))
  · have joined : union a b = unionFiniteBlacklist a b := by simp [union,kindA,kindB,same]
    rw [joined,addition_admits_iff kindA kindB listsB]
    exact ⟨fun stated => ⟨stated,not_overjoined_of_kind (.inl (by simp [kindB]))⟩,And.left⟩
  · have joined : union a b = unionFiniteBlacklist b a := by simp [union,kindA,kindB,same]
    rw [joined]
    have turned := addition_admits_iff kindB kindA listsA
    constructor
    · intro sound
      refine ⟨not_overjoined_of_kind (.inl (by simp [kindA])),turned.mp fun B inB A inA => ?_⟩
      rw [Set.union_comm]
      exact sound A inA B inB
    · intro stated A inA B inB
      rw [Set.union_comm]
      exact turned.mpr stated.2 B inB A inA
  · have joined : union a b = combineBlacklists (canonAddresses (a.denied.filter (· ∈ b.denied))) a b := by
      simp [union,kindA,kindB,same]
    rw [joined]
    refine iff_of_true (fun A inA B inB => ?_) ⟨?_,?_⟩
    · rw [admits_cofinite kindA] at inA
      rw [admits_cofinite kindB] at inB
      rw [admits_combineBlacklists (filter_lowered listsA.denied)]
      have both : {address | address ∈ a.denied.filter (· ∈ b.denied)} =
        {address | address ∈ a.denied} ∩ {address | address ∈ b.denied} := by
        ext address
        simp
      rw [both]
      exact readDenied_union inA inB
    · exact not_overjoined_of_kind (.inl (by simp [kindA]))
    · exact not_overjoined_of_kind (.inl (by simp [kindB]))

def knownKeepers : CapabilityExpr := {CapabilityExpr.finiteSet ["0xaa"] with membershipQuality:=.lowerBound}

def denylist : CapabilityExpr := .cofiniteBlacklist ["0xbb"]

theorem known_keepers_union_exact : (union knownKeepers denylist).blacklistQuality = .exact ∧
    ¬ ∀ A ∈ admits knownKeepers, ∀ B ∈ admits denylist, A ∪ B ∈ admits (union knownKeepers denylist) := by
  refine ⟨rfl,fun sound => ?_⟩
  have joined : union knownKeepers denylist = unionFiniteBlacklist knownKeepers denylist := rfl
  rw [joined] at sound
  have stated := (addition_admits_iff rfl rfl (lists_cofiniteBlacklist ["0xbb"])).mp sound
  have denied : "0xbb" ∈ denylist.denied := by decide +kernel
  have left : "0xbb" ∉ knownKeepers.listed := by decide +kernel
  exact stated ⟨rfl,rfl,.inl ⟨rfl,nofun,_,denied,left⟩⟩

theorem union_admits_iff_keeper : Lists keeper ∧ ∀ A ∈ admits keeper, ∀ B ∈ admits denylist, A ∪ B ∈ admits
    (union keeper denylist) := by
  refine ⟨lists_finiteSet ["0xaa"],?_⟩
  exact (union_admits_iff (lists_finiteSet ["0xaa"]) (lists_cofiniteBlacklist ["0xbb"]) rfl).mpr
    ⟨fun stated => stated.2.2.elim (fun lower => absurd lower.1 nofun) (fun upper => absurd upper.1 nofun),
        fun stated => absurd stated.1 nofun⟩

end

end Psat.Capability
