import Psat.Capability.Composition

namespace Psat.Capability
open Psat.General List

theorem heights_agree (agree : heightsDiffer [a,b] = false) (least : propagatedHeight [a,b] = some h) :
    a.lastIndexedBlock = some h ∧ b.lastIndexedBlock = some h := by
  cases heightA : a.lastIndexedBlock with
  | none => simp [propagatedHeight,heightA] at least
  | some m =>
    cases heightB : b.lastIndexedBlock with
    | none => simp [propagatedHeight,heightA,heightB] at least
    | some n =>
      have same : m = n := by
        by_contra differs
        have apart : ¬ n = m := fun equal => differs equal.symm
        simp [heightsDiffer,heightA,heightB,Ordered.unique,Ordered.insertKeys,Ordered.insertKey,apart] at agree
      subst same
      simpa [propagatedHeight,heightA,heightB] using least

theorem height_alone (least : propagatedHeight [a] = some h) : a.lastIndexedBlock = some h := by
  cases height : a.lastIndexedBlock with
  | none => simp [propagatedHeight,height] at least
  | some m => simpa [propagatedHeight,height] using least

theorem not_refused (open_ : foldedAsOf cap operands licensed ≠ some .notDetermined) :
    (∀ op ∈ operands, op.exactAsOf ≠ some .notDetermined) ∧ heightsDiffer operands = false := by
  unfold foldedAsOf at open_
  split at open_
  · exact absurd rfl open_
  · rename_i clear
    simp only [Bool.or_eq_true,not_or,Bool.not_eq_true] at clear
    refine ⟨fun op member refused => ?_,clear.2⟩
    have none := any_eq_false.mp clear.1 op member
    simp [refused] at none

theorem foldedAsOf_height (published : foldedAsOf cap operands licensed = some (.height h)) :
    licensed = true ∧ publishedQuality cap = .exact ∧ operands.head?.bind (·.lastIndexedBlock) = some h ∧
      (∀ op ∈ operands, op.lastIndexedBlock ≠ none) := by
  unfold foldedAsOf at published
  split at published
  · cases published
  · split at published
    · cases published
    · rename_i allowed
      split at published
      · cases published
      · rename_i quality
        split at published
        · cases published
        · rename_i known
          refine ⟨by simpa using allowed,by simpa using quality,?_,?_⟩
          · cases first : operands.head?.bind (·.lastIndexedBlock) with
            | none => simp [first] at published
            | some block =>
              simp only [first,Option.map_some,Option.some.injEq,AsOf.height.injEq] at published
              rw [published]
          · intro op member missing
            apply known
            rw [any_eq_true]
            exact ⟨op,member,by simp [missing]⟩

-- A node whose height and as-of were folded from operands.
structure Carried (operands : List ExprFields) (node : ExprFields) (licensed : Bool) : Prop where
  height : node.lastIndexedBlock = propagatedHeight operands
  asOf : node.exactAsOf = foldedAsOf node operands licensed

theorem carryFoldProvenance_carried (operands : List CapabilityExpr) (licensed : Bool) :
    Carried (operands.map (·.toExprFields)) (carryFoldProvenance cap operands licensed).toExprFields licensed :=
  ⟨rfl,rfl⟩

-- A height that no fold has refused.
def Standing (node : ExprFields) (h : Nat) : Prop :=
  node.exactAsOf ≠ some .notDetermined ∧ node.lastIndexedBlock = some h

section
variable {a b node : ExprFields}

theorem foldedAsOf_open (open_ : ∀ op ∈ operands, Standing op h) (agree : heightsDiffer operands = false) :
    foldedAsOf node operands licensed =
      if licensed = true ∧ publishedQuality node = .exact then (operands.head?.bind (·.lastIndexedBlock)).map .height
      else none := by
  have clear : operands.any (fun op => op.exactAsOf == some .notDetermined) = false := by
    rw [any_eq_false]
    intro op member refused
    exact (open_ op member).1 (by simpa using refused)
  have known : operands.any (fun op => op.lastIndexedBlock.isNone) = false := by
    rw [any_eq_false]
    intro op member
    simp [(open_ op member).2]
  unfold foldedAsOf
  rw [clear,agree,known]
  cases licensed <;> by_cases quality : publishedQuality node = .exact <;> simp [quality]

theorem Carried.standing_pair (carried : Carried [a,b] node licensed) :
    Standing node h ↔ Standing a h ∧ Standing b h := by
  constructor
  · intro standing
    have open_ := standing.1
    rw [carried.asOf] at open_
    obtain ⟨clear,agree⟩ := not_refused open_
    obtain ⟨heightA,heightB⟩ := heights_agree agree (carried.height.symm.trans standing.2)
    exact ⟨⟨clear a (by simp),heightA⟩,⟨clear b (by simp),heightB⟩⟩
  · intro both
    have open_ : ∀ op ∈ [a,b], Standing op h := by simpa using both
    have agree : heightsDiffer [a,b] = false := by
      simp [heightsDiffer,both.1.2,both.2.2,Ordered.unique,Ordered.insertKeys,Ordered.insertKey]
    constructor
    · rw [carried.asOf,foldedAsOf_open open_ agree]
      split <;> simp [both.1.2]
    · rw [carried.height]
      simp [propagatedHeight,both.1.2,both.2.2]

theorem Carried.standing_alone (carried : Carried [a] node licensed) : Standing node h ↔ Standing a h := by
  constructor
  · intro standing
    have open_ := standing.1
    rw [carried.asOf] at open_
    exact ⟨(not_refused open_).1 a (by simp),height_alone (carried.height.symm.trans standing.2)⟩
  · intro standing
    have open_ : ∀ op ∈ [a], Standing op h := by simpa using standing
    have agree : heightsDiffer [a] = false := by
      simp [heightsDiffer,standing.2,Ordered.unique,Ordered.insertKeys,Ordered.insertKey]
    constructor
    · rw [carried.asOf,foldedAsOf_open open_ agree]
      split <;> simp [standing.2]
    · rw [carried.height]
      simp [propagatedHeight,standing.2]

-- A fold mints where it is licensed, its own quality is exact and every height is the same.
def Minted (node : ExprFields) (licensed : Prop) : Prop :=
  ∀ h, node.exactAsOf = some (.height h) ↔ licensed ∧ publishedQuality node = .exact ∧ Standing node h

theorem minted_of_open (asOf : node.exactAsOf = foldedAsOf node (first :: rest) licensed)
    (standing : ∀ h, Standing node h → ∀ op ∈ first :: rest, Standing op h)
    (height : ∀ h, node.exactAsOf = some (.height h) → Standing node h) : Minted node (licensed = true) := by
  intro h
  constructor
  · intro published
    obtain ⟨allowed,quality,_⟩ := foldedAsOf_height (asOf.symm.trans published)
    exact ⟨allowed,quality,height h published⟩
  · rintro ⟨allowed,quality,here⟩
    have agree := (not_refused (asOf ▸ here.1)).2
    rw [asOf,foldedAsOf_open (standing h here) agree,if_pos ⟨allowed,quality⟩]
    simp [(standing h here first mem_cons_self).2]

theorem Minted.always (minted : Minted node (true = true)) : Minted node True := by
  rwa [eq_self] at minted

theorem Carried.minted_pair (carried : Carried [a,b] node licensed) : Minted node (licensed = true) := by
  apply minted_of_open carried.asOf
  · intro h here
    simpa using carried.standing_pair.mp here
  · intro h published
    have folded : foldedAsOf node [a,b] licensed = some (.height h) := carried.asOf.symm.trans published
    obtain ⟨_,_,first,known⟩ := foldedAsOf_height folded
    have agree := (not_refused (by rw [folded]; intro same; cases same)).2
    have heightA : a.lastIndexedBlock = some h := by simpa using first
    obtain ⟨n,heightB⟩ := Option.ne_none_iff_exists'.mp (known b (by simp))
    obtain ⟨least,found⟩ : ∃ least, propagatedHeight [a,b] = some least := by
      simp [propagatedHeight,heightA,heightB]
    obtain ⟨sameA,_⟩ := heights_agree agree found
    refine ⟨?_,?_⟩
    · rw [published]
      intro same
      cases same
    · rw [carried.height,found,←sameA,heightA]

theorem Carried.minted_alone (carried : Carried [a] node licensed) : Minted node (licensed = true) := by
  apply minted_of_open carried.asOf
  · intro h here
    simpa using carried.standing_alone.mp here
  · intro h published
    obtain ⟨_,_,first,_⟩ := foldedAsOf_height (carried.asOf.symm.trans published)
    have height : a.lastIndexedBlock = some h := by simpa using first
    refine ⟨?_,?_⟩
    · rw [published]
      intro same
      cases same
    · rw [carried.height]
      simp [propagatedHeight,height]

theorem publishedQuality_finite (kind : a.kind = .finiteSet) : publishedQuality a = a.membershipQuality := by
  simp [publishedQuality,kind]

theorem publishedQuality_cofinite (kind : a.kind = .cofiniteBlacklist) : publishedQuality a = a.blacklistQuality := by
  simp [publishedQuality,kind]

end

theorem combineBlacklistQuality_exact : combineBlacklistQuality qa qb = .exact ↔ qa = .exact ∧ qb = .exact := by
  cases qa <;> cases qb <;> simp [combineBlacklistQuality]

theorem intersectQuality_exact (met : intersectQuality qa qb = some quality) :
    quality = .exact ↔ qa = .exact ∧ qb = .exact := by
  cases qa <;> cases qb <;> simp_all [intersectQuality]

theorem unionQuality_exact (met : unionQuality qa qb = some quality) :
    quality = .exact ↔ qa = .exact ∧ qb = .exact := by
  cases qa <;> cases qb <;> simp_all [unionQuality]

-- The leaves whose heights a result compared, those whose qualities it counted, and those whose quality it did not.
structure Reading where
  heights : List CapabilityExpr
  qualities : List CapabilityExpr
  ignored : List CapabilityExpr

namespace Reading

def leaves (reading : Reading) : List CapabilityExpr := reading.qualities ++ reading.ignored

def both (a b : Reading) : Reading := ⟨a.heights ++ b.heights,a.qualities ++ b.qualities,a.ignored ++ b.ignored⟩

-- `b` lends its height and not its quality.
def lead (a b : Reading) : Reading :=
  ⟨a.heights ++ b.heights,a.qualities,a.ignored ++ b.leaves⟩

-- `b` became a condition.
def alone (a b : Reading) : Reading := ⟨a.heights,a.qualities,a.ignored ++ b.leaves⟩

def HeldAt (reading : Reading) (h : Nat) : Prop := ∀ leaf ∈ reading.heights, leaf.lastIndexedBlock = some h

def Exact (reading : Reading) : Prop := ∀ leaf ∈ reading.qualities, publishedQuality leaf.toExprFields = .exact

theorem both_heldAt : (both a b).HeldAt h ↔ a.HeldAt h ∧ b.HeldAt h := forall_mem_append

theorem lead_heldAt : (lead a b).HeldAt h ↔ a.HeldAt h ∧ b.HeldAt h := forall_mem_append

theorem mem_both : cap ∈ (both a b).leaves ↔ cap ∈ a.leaves ∨ cap ∈ b.leaves := by
  simp only [leaves,both,mem_append]
  tauto

theorem mem_lead : cap ∈ (lead a b).leaves ↔ cap ∈ a.leaves ∨ cap ∈ b.leaves := by
  simp [leaves,lead,or_assoc]

theorem mem_alone : cap ∈ (alone a b).leaves ↔ cap ∈ a.leaves ∨ cap ∈ b.leaves := by
  simp [leaves,alone,or_assoc]

theorem both_exact : (both a b).Exact ↔ a.Exact ∧ b.Exact := forall_mem_append

end Reading

-- What a listing publishes, in terms of the leaves it was read from.
structure Read (reading : Reading) (licensed : Prop) (node : ExprFields) : Prop where
  standing : ∀ h, Standing node h ↔ reading.HeldAt h
  quality : publishedQuality node = .exact ↔ reading.Exact
  minted : Minted node licensed

-- The values a composition of listings runs through.
def Settled (cap : CapabilityExpr) : Prop :=
  cap.kind.isListing = true ∨ ((cap.kind = .and ∨ cap.kind = .or) ∧ 2 ≤ cap.children.length)

section
variable {a b : CapabilityExpr} {readingA readingB : Reading} {licensedA licensedB : Prop}

theorem Settled.kinds (settled : Settled a) : a.kind ≠ .unsupported ∧ a.kind ≠ .conditionalUniversal := by
  rcases settled with listing | ⟨kind | kind,_⟩
  · rcases CapKind.isListing_iff.mp listing with kind | kind <;> simp [kind]
  · simp [kind]
  · simp [kind]

-- A structural node publishes nothing of its own.
structure Outcome (reading : Reading) (licensed : Prop) (cap : CapabilityExpr) : Prop where
  settled : Settled cap
  read : cap.kind.isListing = true → Read reading licensed cap.toExprFields

theorem Outcome.finite (outcome : Outcome reading licensed a) (kind : a.kind = .finiteSet) :
    Read reading licensed a.toExprFields := outcome.read (CapKind.isListing_iff.mpr (.inl kind))

theorem Outcome.cofinite (outcome : Outcome reading licensed a) (kind : a.kind = .cofiniteBlacklist) :
    Read reading licensed a.toExprFields := outcome.read (CapKind.isListing_iff.mpr (.inr kind))

theorem structuralAnd_outcome (wide : 2 ≤ children.length) : Outcome reading licensed (.structuralAnd children) := by
  match children with
  | _ :: _ :: _ => exact ⟨.inr ⟨.inl rfl,wide⟩,fun listing => Bool.noConfusion listing⟩

theorem structuralOr_outcome (wide : 2 ≤ children.length) : Outcome reading licensed (.structuralOr children) := by
  match children with
  | _ :: _ :: _ => exact ⟨.inr ⟨.inr rfl,wide⟩,fun listing => Bool.noConfusion listing⟩

theorem read_both (carried : Carried [a.toExprFields,b.toExprFields] node true)
    (readA : Read readingA licensedA a.toExprFields) (readB : Read readingB licensedB b.toExprFields)
    (quality : publishedQuality node = .exact ↔
      publishedQuality a.toExprFields = .exact ∧ publishedQuality b.toExprFields = .exact) :
    Read (readingA.both readingB) True node := by
  refine ⟨fun h => ?_,?_,carried.minted_pair.always⟩
  · rw [carried.standing_pair,readA.standing,readB.standing,Reading.both_heldAt]
  · rw [quality,readA.quality,readB.quality,Reading.both_exact]

theorem read_lead (minted : Minted node licensed)
    (standing : ∀ h, Standing node h ↔ Standing a.toExprFields h ∧ Standing b.toExprFields h)
    (quality : publishedQuality node = publishedQuality a.toExprFields)
    (readA : Read readingA licensedA a.toExprFields) (readB : Read readingB licensedB b.toExprFields) :
    Read (readingA.lead readingB) licensed node := by
  refine ⟨fun h => ?_,?_,minted⟩
  · rw [standing,Reading.lead_heldAt,readA.standing,readB.standing]
  · rw [quality,readA.quality]
    rfl

def Removes (finite blacklist : ExprFields) : Prop :=
  finite.kind = .finiteSet ∧ blacklist.kind = .cofiniteBlacklist ∧ finite.subject = blacklist.subject ∧
    finite.listed ≠ [] ∧
    ∀ address ∈ finite.listed, address ∈ blacklist.denied

theorem licensed_iff (kindA : a.kind = .finiteSet) (kindB : b.kind = .cofiniteBlacklist)
    (subject : a.subject = b.subject) :
    ((!(canonAddresses (a.listed.filter (· ∉ b.denied))).isEmpty || a.listed.isEmpty) = true) =
      ¬ Removes a.toExprFields b.toExprFields := by
  have kept : canonAddresses (a.listed.filter (· ∉ b.denied)) = [] ↔ ∀ address ∈ a.listed, address ∈ b.denied := by
    simp only [eq_nil_iff_forall_not_mem,mem_canonAddresses,mem_filter,decide_eq_true_eq,not_exists,not_and]
    exact ⟨fun gone address listed => not_not.mp fun kept => gone _ address ⟨listed,kept⟩ rfl,
      fun gone _ address kept => absurd (gone address kept.1) kept.2⟩
  simp only [Removes,kindA,kindB,subject,true_and,Bool.or_eq_true,Bool.not_eq_true',List.isEmpty_iff,eq_iff_iff,
    isEmpty_eq_false_iff,ne_eq,kept]
  tauto

section
variable (readA : Read readingA licensedA a.toExprFields) (readB : Read readingB licensedB b.toExprFields)
include readA readB

theorem intersectFinite_outcome (kindA : a.kind = .finiteSet) (kindB : b.kind = .finiteSet) :
    Outcome (readingA.both readingB) True (intersectFinite a b) := by
  unfold intersectFinite
  cases met : intersectQuality a.membershipQuality b.membershipQuality with
  | none => exact structuralAnd_outcome (le_refl 2)
  | some quality =>
    dsimp only
    split
    · exact structuralAnd_outcome (le_refl 2)
    · refine ⟨.inl rfl,fun _ => read_both (carryFoldProvenance_carried [a,b] true) readA readB ?_⟩
      rw [publishedQuality_finite kindA,publishedQuality_finite kindB]
      exact intersectQuality_exact met

theorem unionFinite_outcome (kindA : a.kind = .finiteSet) (kindB : b.kind = .finiteSet) :
    Outcome (readingA.both readingB) True (unionFinite a b) := by
  unfold unionFinite
  cases met : unionQuality a.membershipQuality b.membershipQuality with
  | none => exact structuralOr_outcome (le_refl 2)
  | some quality =>
    refine ⟨.inl rfl,fun _ => read_both (carryFoldProvenance_carried [a,b] true) readA readB ?_⟩
    rw [publishedQuality_finite kindA,publishedQuality_finite kindB]
    exact unionQuality_exact met

theorem combineBlacklists_outcome (kindA : a.kind = .cofiniteBlacklist) (kindB : b.kind = .cofiniteBlacklist) :
    Outcome (readingA.both readingB) True (combineBlacklists denied a b) := by
  refine ⟨.inl rfl,fun _ => read_both (carryFoldProvenance_carried [a,b] true) readA readB ?_⟩
  rw [publishedQuality_cofinite kindA,publishedQuality_cofinite kindB]
  exact combineBlacklistQuality_exact

theorem intersectFiniteBlacklist_outcome (kindA : a.kind = .finiteSet) (kindB : b.kind = .cofiniteBlacklist)
    (subject : a.subject = b.subject) :
    Outcome (readingA.lead readingB) (¬ Removes a.toExprFields b.toExprFields) (intersectFiniteBlacklist a b) := by
  have carried : Carried [a.toExprFields,b.toExprFields] (intersectFiniteBlacklist a b).toExprFields _ :=
    carryFoldProvenance_carried [a,b] _
  have minted := carried.minted_pair
  rw [licensed_iff kindA kindB subject] at minted
  refine ⟨.inl rfl,fun _ => read_lead minted (fun h => carried.standing_pair) ?_ readA readB⟩
  rw [publishedQuality_finite kindA]
  rfl

theorem unionFiniteBlacklist_outcome (kindB : b.kind = .cofiniteBlacklist) :
    Outcome (readingB.lead readingA) True (unionFiniteBlacklist a b) := by
  have carried : Carried [a.toExprFields,b.toExprFields] (unionFiniteBlacklist a b).toExprFields true :=
    carryFoldProvenance_carried [a,b] true
  have standing : ∀ h, Standing (unionFiniteBlacklist a b).toExprFields h ↔
      Standing b.toExprFields h ∧ Standing a.toExprFields h := by
    intro h
    rw [carried.standing_pair,and_comm]
  refine ⟨.inl rfl,fun _ => read_lead carried.minted_pair.always standing ?_ readB readA⟩
  rw [publishedQuality_cofinite kindB]
  rfl

end

theorem foldBound_outcome (outcome : Outcome readingA licensedA a) :
    Outcome (readingA.alone readingB) licensedA (foldBound a b) := by
  refine ⟨outcome.settled,fun listing => ?_⟩
  obtain ⟨standing,quality,minted⟩ := outcome.read listing
  exact ⟨standing,quality,minted⟩

theorem negate_outcome (outcome : Outcome readingA licensedA a) : Outcome readingA True (negate a) := by
  rcases outcome.settled with listing | ⟨kind | kind,wide⟩
  · have read := outcome.read listing
    rcases CapKind.isListing_iff.mp listing with kind | kind
    · rw [negate_finite kind]
      have carried : Carried [a.toExprFields] (complementFinite a).toExprFields true :=
        carryFoldProvenance_carried [a] true
      refine ⟨.inl rfl,fun _ => ⟨fun h => ?_,?_,carried.minted_alone.always⟩⟩
      · exact carried.standing_alone.trans (read.standing h)
      · rw [←read.quality,publishedQuality_finite kind]
        by_cases quality : a.membershipQuality = .exact <;>
          simp [publishedQuality,complementFinite,carryFoldProvenance,CapabilityExpr.cofiniteBlacklist,quality]
    · rw [negate_cofinite kind]
      have carried : Carried [a.toExprFields] (complementBlacklist a).toExprFields true :=
        carryFoldProvenance_carried [a] true
      refine ⟨.inl rfl,fun _ => ⟨fun h => ?_,?_,carried.minted_alone.always⟩⟩
      · exact carried.standing_alone.trans (read.standing h)
      · rw [←read.quality,publishedQuality_cofinite kind]
        by_cases quality : a.blacklistQuality = .exact <;>
          simp [publishedQuality,complementBlacklist,carryFoldProvenance,CapabilityExpr.finiteSet,quality]
  · rw [negate_and kind]
    exact structuralOr_outcome (by simpa using wide)
  · rw [negate_or kind]
    exact structuralAnd_outcome (by simpa using wide)

end

namespace Composition

-- An intersect that removed every member of a set that had some.
def Emptied : Composition → Prop
  | intersect x y =>
    Removes x.value.toExprFields y.value.toExprFields ∨ Removes y.value.toExprFields x.value.toExprFields
  | _ => False

structure AsOfEarned (x : Composition) : Prop where
  leaves : ∀ h, x.value.kind.isListing = true → x.value.exactAsOf = some (.height h) →
    ∀ leaf ∈ x.leaves, leaf.lastIndexedBlock = some h ∧ publishedQuality leaf.toExprFields = .exact
  inherited : ∀ h, x.value.kind = .finiteSet → x.value.listed = [] → x.value.exactAsOf = some (.height h) →
    ∀ part ∈ x.parts, ¬ part.Emptied

-- Leaves of one subject, as a resolver publishes them.
def Fresh (subject : Subject) (x : Composition) : Prop :=
  ∀ leaf ∈ x.leaves, leaf.kind.isListing = true ∧ leaf.subject = subject ∧ leaf.exactAsOf = none

@[simp] def reading : Composition → Reading
  | leaf cap => ⟨[cap],[cap],[]⟩
  | intersect x y =>
    if x.value.subject ≠ y.value.subject then
      if y.value.subject = .bound then x.reading.alone y.reading else y.reading.alone x.reading
    else
      match x.value.kind,y.value.kind with
      | .finiteSet,.cofiniteBlacklist => x.reading.lead y.reading
      | .cofiniteBlacklist,.finiteSet => y.reading.lead x.reading
      | _,_ => x.reading.both y.reading
  | union x y =>
    match x.value.kind,y.value.kind with
    | .finiteSet,.cofiniteBlacklist => y.reading.lead x.reading
    | .cofiniteBlacklist,.finiteSet => x.reading.lead y.reading
    | _,_ => x.reading.both y.reading
  | negate x => x.reading

-- The last fold may mint: a resolved leaf carries no as-of, and a fold that emptied a set is refused one.
def Licensed : Composition → Prop
  | leaf _ => False
  | intersect x y =>
    if x.value.subject ≠ y.value.subject then
      if y.value.subject = .bound then x.Licensed else y.Licensed
    else ¬ (intersect x y).Emptied
  | union _ _ => True
  | negate _ => True

-- What the folds do not look at agrees with what they do.
def Warranted (x : Composition) : Prop :=
  x.value.kind.isListing = true → x.Licensed → x.reading.Exact → ∀ h, x.reading.HeldAt h →
    (∀ leaf ∈ x.reading.ignored, leaf.lastIndexedBlock = some h ∧ publishedQuality leaf.toExprFields = .exact) ∧
      (x.value.kind = .finiteSet → x.value.listed = [] → ∀ part ∈ x.parts, ¬ part.Emptied)

variable {x y : Composition}

theorem mem_leaves : cap ∈ x.leaves ↔ cap ∈ x.reading.leaves := by
  induction x with
  | leaf cap => simp [leaves,reading,Reading.leaves]
  | negate x ih => exact ih
  | intersect x y left right =>
    rw [leaves,mem_append,left,right,reading]
    split
    · split
      · exact Reading.mem_alone.symm
      · exact or_comm.trans Reading.mem_alone.symm
    · split
      · exact Reading.mem_lead.symm
      · exact or_comm.trans Reading.mem_lead.symm
      · exact Reading.mem_both.symm
  | union x y left right =>
    rw [leaves,mem_append,left,right,reading]
    split
    · exact or_comm.trans Reading.mem_lead.symm
    · exact Reading.mem_lead.symm
    · exact Reading.mem_both.symm

theorem compared_of_counted (member : cap ∈ x.reading.qualities) : cap ∈ x.reading.heights := by
  induction x with
  | leaf cap => exact member
  | negate x ih => exact ih member
  | intersect x y left right =>
    revert member
    rw [reading]
    split
    · split
      · exact left
      · exact right
    · split
      · exact fun member => mem_append_left _ (left member)
      · exact fun member => mem_append_left _ (right member)
      · exact fun member => mem_append.mpr ((mem_append.mp member).imp left right)
  | union x y left right =>
    revert member
    rw [reading]
    split
    · exact fun member => mem_append_left _ (right member)
    · exact fun member => mem_append_left _ (left member)
    · exact fun member => mem_append.mpr ((mem_append.mp member).imp left right)

theorem not_removes {a b : ExprFields} (other : a.kind = .cofiniteBlacklist ∨ b.kind = .finiteSet) : ¬ Removes a b := by
  rcases other with kind | kind <;> simp [Removes,kind]

theorem intersect_outcome (left : Outcome x.reading x.Licensed x.value) (right : Outcome y.reading y.Licensed y.value) :
    Outcome (intersect x y).reading (intersect x y).Licensed (intersect x y).value := by
  have shape := intersected x.value y.value
  rw [value,reading,Licensed,Emptied]
  generalize Capability.intersect x.value y.value = result at shape ⊢
  cases shape with
  | unsupported either => exact absurd either (not_or.mpr ⟨left.settled.kinds.1,right.settled.kinds.1⟩)
  | openLeft _ _ anyone => exact absurd anyone left.settled.kinds.2
  | openRight _ _ _ anyone => exact absurd anyone right.settled.kinds.2
  | boundRight _ _ _ _ root bound =>
    simp only [root,bound]
    exact foldBound_outcome left
  | boundLeft _ _ _ _ bound root =>
    simp only [root,bound]
    exact foldBound_outcome right
  | finite same kindX kindY =>
    simp only [same,kindX,kindY,not_removes (.inr kindX),not_removes (.inr kindY),ne_eq,not_true_eq_false,if_false,
      or_self,not_false_eq_true]
    exact intersectFinite_outcome (left.finite kindX) (right.finite kindY) kindX kindY
  | subtractRight same kindX kindY =>
    simp only [same,kindX,kindY,not_removes (.inr kindX),or_false,ne_eq,not_true_eq_false,if_false]
    exact intersectFiniteBlacklist_outcome (left.finite kindX) (right.cofinite kindY) kindX kindY same
  | subtractLeft same kindX kindY =>
    simp only [same,kindX,kindY,not_removes (.inr kindY),false_or,ne_eq,not_true_eq_false,if_false]
    exact intersectFiniteBlacklist_outcome (right.finite kindY) (left.cofinite kindX) kindY kindX same.symm
  | denied same kindX kindY =>
    simp only [same,kindX,kindY,not_removes (.inl kindX),not_removes (.inl kindY),ne_eq,not_true_eq_false,if_false,
      or_self,not_false_eq_true]
    exact combineBlacklists_outcome (left.cofinite kindX) (right.cofinite kindY) kindX kindY
  | structural => exact structuralAnd_outcome (le_refl 2)

theorem union_outcome (left : Outcome x.reading x.Licensed x.value) (right : Outcome y.reading y.Licensed y.value) :
    Outcome (union x y).reading (union x y).Licensed (union x y).value := by
  have shape := joined x.value y.value
  rw [value,reading,Licensed]
  generalize Capability.union x.value y.value = result at shape ⊢
  cases shape with
  | finite _ kindX kindY =>
    simp only [kindX,kindY]
    exact unionFinite_outcome (left.finite kindX) (right.finite kindY) kindX kindY
  | addLeft _ kindX kindY =>
    simp only [kindX,kindY]
    exact unionFiniteBlacklist_outcome (left.finite kindX) (right.cofinite kindY) kindY
  | addRight _ kindX kindY =>
    simp only [kindX,kindY]
    exact unionFiniteBlacklist_outcome (right.finite kindY) (left.cofinite kindX) kindX
  | denied _ kindX kindY =>
    simp only [kindX,kindY]
    exact combineBlacklists_outcome (left.cofinite kindX) (right.cofinite kindY) kindX kindY
  | same anyone => exact absurd anyone left.settled.kinds.2
  | structural => exact structuralOr_outcome (le_refl 2)

theorem outcome (fresh : x.Fresh subject) : Outcome x.reading x.Licensed x.value := by
  induction x with
  | leaf cap =>
    obtain ⟨listing,_,unread⟩ := fresh cap (mem_singleton_self cap)
    refine ⟨.inl listing,fun _ => ⟨fun h => ?_,?_,fun h => ?_⟩⟩
    · simp [Standing,Reading.HeldAt,reading,value,unread]
    · simp [Reading.Exact,reading,value]
    · simp [value,Licensed,unread]
  | intersect x y left right =>
    exact intersect_outcome (left fun leaf member => fresh leaf (mem_append_left _ member))
      (right fun leaf member => fresh leaf (mem_append_right _ member))
  | union x y left right =>
    exact union_outcome (left fun leaf member => fresh leaf (mem_append_left _ member))
      (right fun leaf member => fresh leaf (mem_append_right _ member))
  | negate x ih => exact negate_outcome (ih fresh)

-- A published height is one that every fold compared and no fold refused.
theorem as_of_iff (fresh : x.Fresh subject) (listing : x.value.kind.isListing = true) :
    x.value.exactAsOf = some (.height h) ↔ x.Licensed ∧ x.reading.Exact ∧ x.reading.HeldAt h := by
  have read := (outcome fresh).read listing
  rw [read.minted,read.quality,read.standing]

theorem asOf_earned_iff (subject : Subject) {x : Composition} (fresh : x.Fresh subject) :
    x.AsOfEarned ↔ x.Warranted := by
  constructor
  · intro earned listing licensed exact_ h held
    have published := (as_of_iff fresh listing).mpr ⟨licensed,exact_,held⟩
    refine ⟨fun leaf member => ?_,fun kind none => earned.inherited h kind none published⟩
    exact earned.leaves h listing published leaf (mem_leaves.mpr (mem_append_right _ member))
  · intro warranted
    constructor
    · intro h listing published leaf member
      obtain ⟨licensed,exact_,held⟩ := (as_of_iff fresh listing).mp published
      cases mem_append.mp (mem_leaves.mp member) with
      | inl counted => exact ⟨held leaf (compared_of_counted counted),exact_ leaf counted⟩
      | inr ignored => exact (warranted listing licensed exact_ h held).1 leaf ignored
    · intro h kind none published
      have listing : x.value.kind.isListing = true := CapKind.isListing_iff.mpr (.inl kind)
      obtain ⟨licensed,exact_,held⟩ := (as_of_iff fresh listing).mp published
      exact (warranted listing licensed exact_ h held).2 kind none

def indexedAt (block : Nat) (cap : CapabilityExpr) : CapabilityExpr := {cap with lastIndexedBlock:=some block}

def laundered : Composition :=
  union (intersect (leaf (indexedAt 7 (.finiteSet ["0xaa"]))) (leaf (indexedAt 7 (.cofiniteBlacklist ["0xaa"]))))
    (leaf (indexedAt 7 (.finiteSet [])))

theorem emptied_set_gets_as_of : laundered.Fresh .root ∧ laundered.value.kind = .finiteSet ∧
    laundered.value.listed = [] ∧
    laundered.value.exactAsOf = some (.height 7) ∧ ∃ part ∈ laundered.parts, part.Emptied := by
  refine ⟨?_,?_⟩
  · intro cap member
    simp only [laundered,leaves,cons_append,nil_append,mem_cons,not_mem_nil,or_false] at member
    rcases member with rfl | rfl | rfl <;> exact ⟨rfl,rfl,rfl⟩
  · refine ⟨by decide +kernel,by decide +kernel,by decide +kernel,_,mem_cons_of_mem _
      (mem_append_left _ (self_mem_parts _)),?_⟩
    exact .inl ⟨rfl,rfl,rfl,by decide +kernel,by decide +kernel⟩

def readTogether : Composition :=
  union (leaf (indexedAt 7 (.finiteSet ["0xaa"])))
    (intersect (leaf (indexedAt 7 (.finiteSet ["0xbb"]))) (leaf (indexedAt 7 (.cofiniteBlacklist ["0xcc"]))))

theorem readTogether_reading : readTogether.reading =
    ⟨[indexedAt 7 (.finiteSet ["0xaa"]),indexedAt 7 (.finiteSet ["0xbb"]),indexedAt 7 (.cofiniteBlacklist ["0xcc"])],
      [indexedAt 7 (.finiteSet ["0xaa"]),indexedAt 7 (.finiteSet ["0xbb"])],
      [indexedAt 7 (.cofiniteBlacklist ["0xcc"])]⟩ := rfl

theorem readTogether_warranted : readTogether.Warranted := by
  intro _ _ _ h held
  rw [readTogether_reading] at held ⊢
  have height : some 7 = some h := held _ mem_cons_self
  refine ⟨fun cap member => ?_,fun _ none => absurd none (by decide +kernel)⟩
  rw [mem_singleton.mp member]
  exact ⟨height,rfl⟩

theorem readTogether_earned : readTogether.value.exactAsOf = some (.height 7) ∧ readTogether.AsOfEarned := by
  refine ⟨by decide +kernel,(asOf_earned_iff .root ?_).mpr readTogether_warranted⟩
  intro cap member
  simp only [readTogether,leaves,cons_append,nil_append,mem_cons,not_mem_nil,or_false] at member
  rcases member with rfl | rfl | rfl <;> exact ⟨rfl,rfl,rfl⟩

end Composition

end Psat.Capability
