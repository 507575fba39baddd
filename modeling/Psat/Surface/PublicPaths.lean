import Psat.Surface.Answer
import Psat.Surface.Callers

namespace Psat.Surface
open Psat.Capability Psat.General List

-- Leaves that say who may call: an exact enumerated set of end users, a
-- denylist, or everybody.
def AuthorityLeaf (cap : CapDict) : Prop :=
  (cap.kind = .finiteSet ∧ cap.membershipQuality = some .exact ∧ cap.confidence = some .enumerable ∧
      cap.subject = .root) ∨ cap.kind = .cofiniteBlacklist ∨ cap.kind = .conditionalUniversal

-- The denoted set is all but finitely many callers, read off the tree.
mutual
def opens : CapDict → Bool
  | ⟨fields,_,children⟩ =>
    match fields.kind with
    | .cofiniteBlacklist => true
    | .conditionalUniversal => true
    | .and => allOpen children
    | .or => anyOpens children
    | _ => false
def allOpen : List CapDict → Bool
  | [] => true
  | child :: rest => opens child && allOpen rest
def anyOpens : List CapDict → Bool
  | [] => false
  | child :: rest => opens child || anyOpens rest
end

-- What is visible of a conjunction: listed callers, a public path.
structure Sight where
  callers : Bool := false
  path : Bool := false
deriving DecidableEq

def Sight.blank (v : Sight) : Bool := !v.callers && !v.path

-- Two sides that only list callers leave nothing visible, not an empty set.
def Sight.cancel (left right : Sight) : Sight :=
  if left.blank then right
  else if right.blank then left
  else ⟨left.callers && right.path || right.callers && left.path,left.path && right.path⟩

structure Conjunct where
  sight : Sight
  empty : Bool
  blocks : Bool

-- What the conjuncts leave visible, from left to right.
def leftover (v : Sight) (empty : Bool) : List Conjunct → Sight
  | [] => v
  | next :: rest =>
    let left := v.cancel next.sight
    let empty := empty || next.empty
    leftover ⟨left.callers,left.path && !empty⟩ empty rest

-- `falseOpen`: a public path is left where only finitely many callers are denoted.
structure Glance where
  lists : Bool := false
  falseOpen : Bool := false

def Glance.sight (glance : Glance) (opens : Bool) : Sight := ⟨glance.lists,opens || glance.falseOpen⟩

mutual
def glance (p : Projector) : CapDict → Glance
  | ⟨fields,_,children⟩ =>
    match fields.kind with
    | .finiteSet => {lists:=(fields.members.getD []).any Text.isAddress}
    | .or =>
      let disjuncts := glances p children
      { lists:=disjuncts.any fun disjunct => disjunct.sight.callers
        falseOpen:=!anyOpens children && disjuncts.any fun disjunct => disjunct.sight.path }
    | .and =>
      let conjuncts := glances p children
      let left := leftover {} false conjuncts
      { lists:=left.callers
        falseOpen:=!allOpen children && left.path && !conjuncts.any Conjunct.blocks }
    | _ => {}
def glances (p : Projector) : List CapDict → List Conjunct
  | [] => []
  | child :: rest =>
    let sight := (glance p child).sight (opens child)
    { sight
      empty:=isResolvedEmptyCapability child
      blocks:=p.earnedPublic && sight.blank && isRootAuthorityBlocker child } :: glances p rest
end

def falseOpen (p : Projector) (cap : CapDict) : Bool := (glance p cap).falseOpen

theorem allOpen_eq : allOpen children = children.all opens := by
  induction children with
  | nil => rfl
  | cons child rest ih => simp [allOpen,ih]

theorem anyOpens_eq : anyOpens children = children.any opens := by
  induction children with
  | nil => rfl
  | cons child rest ih => simp [anyOpens,ih]

theorem opens_eq : opens cap =
    match cap.kind with
  | .cofiniteBlacklist => true
  | .conditionalUniversal => true
  | .and => cap.children.all opens
  | .or => cap.children.any opens
  | _ => false := by
  cases cap with
  | mk fields signer children => rw [opens,allOpen_eq,anyOpens_eq]

theorem opens_leaf (notAnd : cap.kind ≠ .and) (notOr : cap.kind ≠ .or) :
    opens cap = decide (cap.kind = .cofiniteBlacklist ∨ cap.kind = .conditionalUniversal) := by
  rw [opens_eq]
  cases kind : cap.kind <;> simp_all

theorem opens_and (kind : cap.kind = .and) : opens cap = cap.children.all opens := by
  rw [opens_eq,kind]

theorem opens_or (kind : cap.kind = .or) : opens cap = cap.children.any opens := by
  rw [opens_eq,kind]

theorem resolvedEmpty_and (kind : cap.kind = .and) : isResolvedEmptyCapability cap =
    cap.children.any isResolvedEmptyCapability := by
  rw [resolvedEmpty_eq,kind]
  exact anyResolvedEmpty_eq cap.children

theorem resolvedEmpty_or (kind : cap.kind = .or) (some_child : cap.children ≠ []) :
    isResolvedEmptyCapability cap = cap.children.all isResolvedEmptyCapability := by
  rw [resolvedEmpty_eq,kind]
  simp [some_child,allResolvedEmpty_eq]

theorem resolvedEmpty_finiteSet (kind : cap.kind = .finiteSet) : isResolvedEmptyCapability cap = isProvenEmpty cap := by
  rw [resolvedEmpty_eq,kind]

theorem resolvedEmpty_path (kind : cap.kind = .cofiniteBlacklist ∨ cap.kind = .conditionalUniversal) :
    isResolvedEmptyCapability cap = false := by
  rw [resolvedEmpty_eq]
  rcases kind with kind | kind <;> rw [kind]

theorem glance_eq : glance p cap =
    match cap.kind with
  | .finiteSet => {lists:=(cap.members.getD []).any Text.isAddress}
  | .or =>
    { lists:=(glances p cap.children).any fun disjunct => disjunct.sight.callers
      falseOpen:=!cap.children.any opens && (glances p cap.children).any fun disjunct => disjunct.sight.path }
  | .and =>
    { lists:=(leftover {} false (glances p cap.children)).callers
      falseOpen:=!cap.children.all opens && (leftover {} false (glances p cap.children)).path &&
        !(glances p cap.children).any Conjunct.blocks }
  | _ => {} := by
  cases cap with
  | mk fields signer children => rw [glance,allOpen_eq,anyOpens_eq]

theorem glance_finiteSet (kind : cap.kind = .finiteSet) :
    glance p cap = {lists:=(cap.members.getD []).any Text.isAddress} := by
  rw [glance_eq,kind]

theorem glance_path (kind : cap.kind = .cofiniteBlacklist ∨ cap.kind = .conditionalUniversal) : glance p cap = {} := by
  rw [glance_eq]
  rcases kind with kind | kind <;> rw [kind]

theorem glance_or (kind : cap.kind = .or) :
    glance p cap =
      { lists:=(glances p cap.children).any fun disjunct => disjunct.sight.callers
        falseOpen:=!cap.children.any opens && (glances p cap.children).any fun disjunct => disjunct.sight.path } := by
  rw [glance_eq,kind]

theorem glance_and (kind : cap.kind = .and) :
    glance p cap =
      { lists:=(leftover {} false (glances p cap.children)).callers
        falseOpen:=!cap.children.all opens && (leftover {} false (glances p cap.children)).path &&
          !(glances p cap.children).any Conjunct.blocks } := by
  rw [glance_eq,kind]

structure Sees (s : Shade) (v : Sight) (empty : Bool) : Prop where
  determined : s.ond = false
  callers : s.keys.isEmpty = !v.callers
  path : decide (0 < s.count) = v.path
  nobody : s.nobody = empty

theorem Sees.valid (sees : Sees s v e) : s.valid = !v.blank := by
  simp [Shade.valid,Sight.blank,sees.callers,sees.path]

theorem concatKeys_isEmpty (parts : List (List RowKey)) : (Shade.concatKeys parts).isEmpty = parts.all List.isEmpty :=
    by
  have grows : ∀ keys : List RowKey, (parts.foldl Ordered.insertKeys keys).isEmpty =
    (keys.isEmpty && parts.all List.isEmpty) := by
    induction parts with
    | nil => simp
    | cons part rest ih =>
      intro keys
      rw [foldl_cons,ih,Bool.eq_iff_iff]
      simp [Ordered.insertKeys_eq_nil,and_assoc]
  simpa [Shade.concatKeys] using grows []

theorem Sees.meet (left : Sees s v e) (right : Sees s' v' e') :
    (s.meet s').keys.isEmpty = !(v.cancel v').callers ∧ decide (0 < (s.meet s').count) = (v.cancel v').path := by
  have pathLeft := left.path
  have pathRight := right.path
  unfold Shade.meet Sight.cancel
  rw [left.valid,right.valid]
  cases blankLeft : v.blank with
  | true =>
    cases blankRight : v'.blank with
    | true =>
      simp only [Sight.blank,Bool.and_eq_true,Bool.not_eq_true'] at blankRight
      simp [blankRight]
    | false => simpa using ⟨right.callers,right.path⟩
  | false =>
    cases blankRight : v'.blank with
    | true => simpa using ⟨left.callers,left.path⟩
    | false =>
      have zeroLeft : s.count = 0 ↔ v.path = false := by
        rw [← pathLeft]; simp [Nat.pos_iff_ne_zero]
      have zeroRight : s'.count = 0 ↔ v'.path = false := by
        rw [← pathRight]; simp [Nat.pos_iff_ne_zero]
      refine ⟨?_,?_⟩
      · simp only [Bool.not_false,Bool.not_true,Bool.and_self,Bool.false_eq_true,↓reduceIte,Shade.productKeys,
          concatKeys_isEmpty,left.determined,right.determined,zeroLeft,zeroRight]
        cases path : v.path <;> cases path' : v'.path <;> simp [left.callers,right.callers]
      · rw [← left.path,← right.path,Bool.eq_iff_iff]
        simp [Nat.pos_iff_ne_zero]

theorem Sees.and_ (left : Sees s v e) (right : Sees s' v' e') :
    Sees (s.and_ s') ⟨(v.cancel v').callers,(v.cancel v').path && !(e || e')⟩ (e || e') := by
  obtain ⟨callers,path⟩ := left.meet right
  unfold Shade.and_
  rw [left.nobody,right.nobody,left.determined,right.determined]
  cases empty : (e || e') with
  | true => exact ⟨rfl,callers,by simp,rfl⟩
  | false => exact ⟨by simp,callers,by simpa using path,by
    exact Shade.meet_nobody s s'⟩

theorem Sees.or_ (fresh : s.identity = false) (left : Sees s v e) (right : Sees s' v' e') :
    Sees (s.or_ s') ⟨v.callers || v'.callers,v.path || v'.path⟩ (e && e') := by
  unfold Shade.or_
  rw [fresh]
  refine ⟨?_,?_,?_,?_⟩
  · simp [left.determined,right.determined]
  · simp [concatKeys_isEmpty,left.callers,right.callers]
  · rw [← left.path,← right.path,Bool.eq_iff_iff]
    simp only [Bool.false_eq_true,↓reduceIte,decide_eq_true_eq,Bool.or_eq_true]
    omega
  · simp [left.nobody,right.nobody]

theorem Sees.append (sees : Sees s v e) (raw : List Condition) : Sees (s.append raw) v e := by
  unfold Shade.append
  split
  · exact sees
  · exact ⟨sees.determined,sees.callers,sees.path,sees.nobody⟩

theorem Sees.withhold (sees : Sees s v e) (blocked : Bool) : Sees (s.withhold blocked)
    ⟨v.callers,v.path && !blocked⟩ e := by
  unfold Shade.withhold
  rw [sees.path]
  split
  · rename_i both
    simp only [Bool.and_eq_true] at both
    exact ⟨sees.determined,sees.callers,by simp [both.1],sees.nobody⟩
  · rename_i spared
    refine ⟨sees.determined,sees.callers,?_,sees.nobody⟩
    rw [sees.path]
    cases path : v.path <;> cases blocked <;> simp_all

def Seen (p : Projector) (cap : CapDict) : Prop :=
  Sees (shade p cap) ((glance p cap).sight (opens cap)) (isResolvedEmptyCapability cap)

theorem shadeAnd_sees (each : ∀ child ∈ children, Seen p child) (blocked : Bool) (sees : Sees s v e) :
    Sees (shadeAnd p s blocked children).1 (leftover v e (glances p children))
    (e || children.any isResolvedEmptyCapability) ∧
    (shadeAnd p s blocked children).2 = (blocked || (glances p children).any Conjunct.blocks) := by
  induction children generalizing s v e blocked with
  | nil => simpa [shadeAnd,leftover,glances] using sees
  | cons child rest ih =>
    have head : Sees _ _ _ := each child (by simp)
    have step := ih (forall_mem_cons.mp each).2
      (blocked || (p.earnedPublic && !(shade p child).valid && isRootAuthorityBlocker child)) (sees.and_ head)
    rw [head.valid,Bool.not_not] at step
    obtain ⟨shown,stopped⟩ := step
    unfold shadeAnd glances leftover
    rw [head.valid,Bool.not_not]
    refine ⟨?_,?_⟩
    · simpa [Bool.or_assoc] using shown
    · simpa [Bool.or_assoc] using stopped

theorem shadeOr_sees (each : ∀ child ∈ children, Seen p child) (fresh : s.identity = false) (sees : Sees s v e) :
    Sees (shadeOr p s children) ⟨v.callers || (glances p children).any fun disjunct => disjunct.sight.callers,
      v.path || (glances p children).any fun disjunct => disjunct.sight.path⟩
      (e && children.all isResolvedEmptyCapability) := by
  induction children generalizing s v e with
  | nil => simpa [shadeOr,glances] using sees
  | cons child rest ih =>
    have head : Sees _ _ _ := each child (by simp)
    have step := ih (forall_mem_cons.mp each).2
      (Shade.or_identity fresh) (sees.or_ fresh head)
    unfold shadeOr glances
    simpa [Bool.or_assoc,Bool.and_assoc] using step

theorem not_resolvedEmpty_of_opens (built : BuiltFrom AuthorityLeaf cap) (opened : opens cap = true) :
    isResolvedEmptyCapability cap = false := by
  induction built with
  | leaf notAnd notOr _ =>
    rw [opens_leaf notAnd notOr,decide_eq_true_eq] at opened
    exact resolvedEmpty_path opened
  | and kind _ _ ih =>
    rw [opens_and kind,all_eq_true] at opened
    rw [resolvedEmpty_and kind,any_eq_false]
    intro child member
    simp [ih child member (opened child member)]
  | or kind some_child _ ih =>
    rw [opens_or kind,any_eq_true] at opened
    obtain ⟨child,member,opened⟩ := opened
    rw [resolvedEmpty_or kind some_child,all_eq_false]
    exact ⟨child,member,by simp [ih child member opened]⟩

theorem leftover_open (built : ∀ child ∈ children, BuiltFrom AuthorityLeaf child) (opened : children.all opens = true) :
    (∀ v : Sight, v.path = true ∨ v.blank = true ∧ children ≠ [] →
      (leftover v false (glances p children)).path = true) ∧ (glances p children).any Conjunct.blocks = false := by
  induction children with
  | nil => exact ⟨fun v shown => by simpa [glances,leftover] using shown,rfl⟩
  | cons child rest ih =>
    simp only [all_cons,Bool.and_eq_true] at opened
    obtain ⟨left,spared⟩ := ih (forall_mem_cons.mp built).2 opened.2
    have nonempty := not_resolvedEmpty_of_opens (built child (by simp)) opened.1
    have path : ((glance p child).sight (opens child)).path = true := by simp [Glance.sight,opened.1]
    refine ⟨fun v shown => ?_,?_⟩
    · simp only [glances,leftover,nonempty,Bool.or_self,Bool.not_false,Bool.and_true]
      refine left _ (.inl ?_)
      unfold Sight.cancel
      split_ifs with blankLeft blankRight
      · exact path
      · simp [Sight.blank,path] at blankRight
      · rcases shown with shown | ⟨blank,_⟩
        · simp [shown,path]
        · exact absurd blank blankLeft
    · simp [glances,spared,Sight.blank,path]

theorem path_of_any_opens (p : Projector) (children : List CapDict) (opened : children.any opens = true) :
    ((glances p children).any fun disjunct => disjunct.sight.path) = true := by
  induction children with
  | nil => simp at opened
  | cons child rest ih =>
    simp only [any_cons,Bool.or_eq_true] at opened
    simp only [glances,any_cons,Bool.or_eq_true]
    rcases opened with here | later
    · exact .inl (by simp [Glance.sight,here])
    · exact .inr (ih later)

theorem rowsForFiniteSet_isEmpty (cap : CapDict) (conditions : List Condition) :
    (Shade.rows (rowsForFiniteSet cap conditions)).keys.isEmpty = !(cap.members.getD []).any Text.isAddress := by
  rw [Bool.eq_iff_iff]
  simp [Shade.rows,Ordered.unique,Ordered.insertKeys_eq_nil,rowsForFiniteSet]

theorem seen (p : Projector) (built : BuiltFrom AuthorityLeaf cap) : Seen p cap := by
  induction built with
  | @leaf cap notAnd notOr authority =>
    have opened := opens_leaf notAnd notOr
    rcases authority with ⟨kind,_⟩ | path
    · rw [Seen,shade_finiteSet kind,glance_finiteSet kind,resolvedEmpty_finiteSet kind,opened]
      exact ⟨rfl,rowsForFiniteSet_isEmpty cap _,by simp [Glance.sight,Shade.rows,kind],rfl⟩
    · rw [Seen,shade_path path,glance_path path,resolvedEmpty_path path,opened]
      exact ⟨rfl,rfl,by simp [Glance.sight,path],rfl⟩
  | @and cap kind some_child built ih =>
    have start : Sees .empty {} false := ⟨rfl,rfl,rfl,rfl⟩
    obtain ⟨shown,stopped⟩ := shadeAnd_sees ih false start
    have narrowed := (shown.append cap.conditions).withhold (shadeAnd p .empty false cap.children).2
    rw [Seen,shade_and kind,glance_and kind,resolvedEmpty_and kind,opens_and kind]
    rw [Bool.false_or] at narrowed
    convert narrowed using 1
    rw [Glance.sight,stopped,Bool.false_or]
    cases opened : cap.children.all opens with
    | true =>
      obtain ⟨left,spared⟩ := leftover_open (p:=p) built opened
      simp [left {} (.inr ⟨rfl,some_child⟩),spared]
    | false => simp
  | @or cap kind some_child built ih =>
    obtain ⟨first,rest,split⟩ := exists_cons_of_ne_nil some_child
    rw [split] at ih
    have fresh := (built first (by simp [split])).fresh p
    have shown := shadeOr_sees (forall_mem_cons.mp ih).2 fresh (ih first (by simp))
    have joined : shadeOr p .empty cap.children = shadeOr p (shade p first) rest := by
      rw [split,shadeOr_first]
    rw [Seen,shade_or kind,joined,glance_or kind,resolvedEmpty_or kind some_child,opens_or kind]
    convert shown.append cap.conditions using 1
    · have visible := path_of_any_opens p cap.children
      have merged : ∀ x y : Bool, (x = true → y = true) → (x || (!x && y)) = y := by decide
      rw [Glance.sight,merged _ _ visible,split]
      rfl
    · rw [split,all_cons]

-- These trees denote a finite or a cofinite set, and `opens` tells which.
def Sided (cap : CapDict) : Prop := ∀ (given : Given) (place : List Nat),
  (opens cap = true → AllButFinitely (denoted given place cap)) ∧
  (opens cap = false → (denoted given place cap).Finite)

theorem denotedAnd_sided (each : ∀ child ∈ children, Sided child) (given : Given) (place : List Nat) (index : Nat) :
    (children.all opens = true → AllButFinitely (denotedAnd given place index children)) ∧
    (children.all opens = false → (denotedAnd given place index children).Finite) := by
  induction children generalizing index with
  | nil => exact ⟨fun _ => AllButFinitely.univ,by simp⟩
  | cons child rest ih =>
    have head := each child (by simp) given (index :: place)
    have tail := ih (forall_mem_cons.mp each).2 (index + 1)
    simp only [all_cons,Bool.and_eq_true,Bool.and_eq_false_iff]
    refine ⟨fun both => allButFinitely_inter.mpr ⟨head.1 both.1,tail.1 both.2⟩,fun one => ?_⟩
    rcases one with closed | closed
    · exact (head.2 closed).inter_of_left _
    · exact (tail.2 closed).inter_of_right _

theorem denotedOr_sided (each : ∀ child ∈ children, Sided child) (given : Given) (place : List Nat) (index : Nat) :
    (children.any opens = true → AllButFinitely (denotedOr given place index children)) ∧
    (children.any opens = false → (denotedOr given place index children).Finite) := by
  induction children generalizing index with
  | nil => exact ⟨by simp,fun _ => Set.finite_empty⟩
  | cons child rest ih =>
    have head := each child (by simp) given (index :: place)
    have tail := ih (forall_mem_cons.mp each).2 (index + 1)
    simp only [any_cons,Bool.or_eq_true,Bool.or_eq_false_iff]
    refine ⟨fun one => ?_,fun both => (head.2 both.1).union (tail.2 both.2)⟩
    rcases one with opened | opened
    · exact (head.1 opened).mono Set.subset_union_left
    · exact (tail.1 opened).mono Set.subset_union_right

section
variable (built : BuiltFrom AuthorityLeaf cap)
include built

theorem sided : Sided cap := by
  induction built with
  | leaf notAnd notOr authority =>
    intro given place
    rw [opens_leaf notAnd notOr,decide_eq_true_eq,decide_eq_false_iff_not]
    rcases authority with ⟨kind,_⟩ | kind | kind
    · exact ⟨by simp [kind],fun _ => finiteSet_few kind⟩
    · exact ⟨fun _ => cofinite_most kind,by simp [kind]⟩
    · exact ⟨fun _ => by rw [denoted_universal kind]; exact AllButFinitely.univ,by simp [kind]⟩
  | and kind _ _ ih =>
    intro given place
    rw [opens_and kind,denoted_and kind]
    exact denotedAnd_sided ih given place 0
  | or kind _ _ ih =>
    intro given place
    rw [opens_or kind,denoted_or kind]
    exact denotedOr_sided ih given place 0

theorem denoted_most_iff_opens (given : Given) (place : List Nat) :
    AllButFinitely (denoted given place cap) ↔ opens cap = true := by
  obtain ⟨open_,closed⟩ := sided built given place
  refine ⟨fun most => ?_,open_⟩
  cases opened : opens cap with
  | true => rfl
  | false => exact absurd most (not_allButFinitely_of_finite (closed opened))

theorem not_opens_of_falseOpen (slipped : falseOpen p cap = true) :
    opens cap = false := by
  unfold falseOpen at slipped
  cases built with
  | leaf notAnd notOr authority =>
    rcases authority with ⟨kind,_⟩ | path
    · simp [glance_finiteSet kind] at slipped
    · simp [glance_path path] at slipped
  | and kind _ _ =>
    simp only [glance_and kind,Bool.and_eq_true,Bool.not_eq_true'] at slipped
    rw [opens_and kind]
    exact slipped.1.1
  | or kind _ _ =>
    simp only [glance_or kind,Bool.and_eq_true,Bool.not_eq_true'] at slipped
    rw [opens_or kind]
    exact slipped.1

end

-- A public path is reported only where all but finitely many callers are denoted.
theorem public_paths_most_iff (p : Projector) (given : Given) (cap : CapDict) (built : BuiltFrom AuthorityLeaf cap) :
    ∃ work, ∀ budget,
    (0 < (projectCapabilitySurface (p.under budget) cap).publicPathCount → AllButFinitely (denoted given [] cap)) ↔
      budget < work ∨ falseOpen p cap = false := by
  obtain ⟨work,answers⟩ := surface_answers p cap
  refine ⟨work,fun budget => ?_⟩
  rw [denoted_most_iff_opens built given []]
  by_cases short : budget < work
  · have stopped := (answers budget).2 short
    simp [short,stopped.2.1]
  · have answer := (answers budget).1 (Nat.not_lt.mp short)
    have path := (seen p built).path
    rw [Glance.sight,← falseOpen] at path
    rw [answer.paths,← decide_eq_true_iff (p:=0 < _),path]
    simp only [short,false_or,Bool.or_eq_true]
    constructor
    · intro only
      cases slipped : falseOpen p cap with
      | false => rfl
      | true =>
        have closed := not_opens_of_falseOpen built slipped
        exact absurd (only (.inr slipped)) (by simp [closed])
    · rintro sound (opened | slipped)
      · exact opened
      · exact absurd slipped (by simp [sound])

def firstSigner : Caller := "0x1111111111111111111111111111111111111111"
def secondSigner : Caller := "0x2222222222222222222222222222222222222222"

-- Two allowlists and a conjunct open to anyone.
def twoListsThenAnyone : CapDict := allOf [allowed [firstSigner],allowed [secondSigner],anyone]

theorem twoListsThenAnyone_built : BuiltFrom AuthorityLeaf twoListsThenAnyone := by
  refine .and rfl (by simp [twoListsThenAnyone,allOf]) fun child member => ?_
  simp only [twoListsThenAnyone,allOf,mem_cons,not_mem_nil,or_false] at member
  rcases member with rfl | rfl | rfl
  · exact .leaf (by decide) (by decide) (.inl ⟨rfl,rfl,rfl,rfl⟩)
  · exact .leaf (by decide) (by decide) (.inl ⟨rfl,rfl,rfl,rfl⟩)
  · exact .leaf (by decide) (by decide) (.inr (.inr rfl))

theorem twoListsThenAnyone_public : BuiltFrom AuthorityLeaf twoListsThenAnyone ∧
    (projectCapabilitySurface {} twoListsThenAnyone).publicPathCount = 1 ∧ denoted (fun _ _ => ∅)
    [] twoListsThenAnyone = ∅ ∧
    ¬AllButFinitely (denoted (fun _ _ => ∅) [] twoListsThenAnyone) := by
  have nobody : denoted (fun _ _ => ∅) [] twoListsThenAnyone = ∅ := by
    rw [Set.eq_empty_iff_forall_notMem]
    intro caller passes
    rw [denoted_and rfl] at passes
    have first : caller ∈ [Text.lower firstSigner] := passes.1
    have second : caller ∈ [Text.lower secondSigner] := passes.2.1
    rw [mem_singleton] at first second
    exact absurd (first.symm.trans second) (by decide +kernel)
  refine ⟨twoListsThenAnyone_built,by decide +kernel,nobody,?_⟩
  rw [nobody]
  exact not_allButFinitely_of_finite Set.finite_empty

theorem public_paths_most_iff_twoLists :
    ∃ work, ∀ budget,
      (0 < (projectCapabilitySurface (Projector.under {} budget) twoListsThenAnyone).publicPathCount →
        AllButFinitely (denoted (fun _ _ => ∅) [] twoListsThenAnyone)) ↔
          budget < work ∨ falseOpen {} twoListsThenAnyone = false :=
  public_paths_most_iff {} (fun _ _ => ∅) twoListsThenAnyone twoListsThenAnyone_built

end Psat.Surface
