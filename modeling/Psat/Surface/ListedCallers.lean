import Psat.Surface.PublicPaths

namespace Psat.Surface
open Psat.Capability Psat.General List Text

-- An exact, non-empty set of end users.
def AllowlistLeaf (cap : CapDict) : Prop :=
  cap.kind = .finiteSet ∧ cap.membershipQuality = some .exact ∧ cap.subject = .root ∧ (cap.members.getD []) ≠ []

mutual
@[simp] def admits (caller : Caller) : CapDict → Bool
  | ⟨fields,_,children⟩ =>
    match fields.kind with
    | .finiteSet => decide (caller ∈ (fields.members.getD []).map lower)
    | .and => allAdmit caller children
    | .or => anyAdmits caller children
    | _ => false
def allAdmit (caller : Caller) : List CapDict → Bool
  | [] => true
  | child :: rest => admits caller child && allAdmit caller rest
def anyAdmits (caller : Caller) : List CapDict → Bool
  | [] => false
  | child :: rest => admits caller child || anyAdmits caller rest
end

-- Whether a tree lists anybody, and whether it lists one given caller.
structure Listing where
  lists : Bool := false
  publishes : Bool := false
deriving DecidableEq

-- Conjuncts that list callers cancel in pairs.
def Listing.oddOut (conjuncts : List Listing) : Listing :=
  let odd := decide ((conjuncts.countP Listing.lists) % 2 = 1)
  ⟨odd,odd && ((conjuncts.filter Listing.lists).getLast?.any Listing.publishes)⟩

mutual
@[simp] def listing (caller : Caller) : CapDict → Listing
  | ⟨fields,_,children⟩ =>
    match fields.kind with
    | .finiteSet =>
      let addresses := (fields.members.getD []).filter isAddress
      ⟨!addresses.isEmpty,decide (caller ∈ addresses.map lower)⟩
    | .and => .oddOut (listings caller children)
    | .or => ⟨(listings caller children).any Listing.lists,(listings caller children).any Listing.publishes⟩
    | _ => {}
def listings (caller : Caller) : List CapDict → List Listing
  | [] => []
  | child :: rest => listing caller child :: listings caller rest
end

-- A caller listed although some conjunct refuses it.
mutual
@[simp] def falseCaller (caller : Caller) : CapDict → Bool
  | ⟨fields,_,children⟩ =>
    match fields.kind with
    | .and => (Listing.oddOut (listings caller children)).publishes && !allAdmit caller children
    | .or => !anyAdmits caller children && anyFalseCaller caller children
    | _ => false
def anyFalseCaller (caller : Caller) : List CapDict → Bool
  | [] => false
  | child :: rest => falseCaller caller child || anyFalseCaller caller rest
end

theorem allAdmit_eq : allAdmit caller children = children.all (admits caller) := by
  induction children with
  | nil => rfl
  | cons child rest ih => simp [allAdmit,ih]

theorem anyAdmits_eq : anyAdmits caller children = children.any (admits caller) := by
  induction children with
  | nil => rfl
  | cons child rest ih => simp [anyAdmits,ih]

theorem listings_eq : listings caller children = children.map (listing caller) := by
  induction children with
  | nil => rfl
  | cons child rest ih => simp [listings,ih]

theorem anyFalseCaller_eq : anyFalseCaller caller children = children.any (falseCaller caller) := by
  induction children with
  | nil => rfl
  | cons child rest ih => simp [anyFalseCaller,ih]

theorem admits_finiteSet (kind : cap.kind = .finiteSet) : admits caller cap = decide
    (caller ∈ (cap.members.getD []).map lower) := by
  cases cap
  simp_all [admits]

theorem admits_and (kind : cap.kind = .and) : admits caller cap = cap.children.all (admits caller) := by
  cases cap
  simp_all [← allAdmit_eq,admits]

theorem admits_or (kind : cap.kind = .or) : admits caller cap = cap.children.any (admits caller) := by
  cases cap
  simp_all [← anyAdmits_eq,admits]

theorem listing_finiteSet (kind : cap.kind = .finiteSet) :
    listing caller cap = ⟨!((cap.members.getD []).filter isAddress).isEmpty,
    decide (caller ∈ ((cap.members.getD []).filter isAddress).map lower)⟩ := by
  cases cap
  simp_all [listing]

theorem listing_and (kind : cap.kind = .and) : listing caller cap = Listing.oddOut
    (cap.children.map (listing caller)) := by
  cases cap
  simp_all [← listings_eq,listing]

theorem listing_or (kind : cap.kind = .or) :
    listing caller cap = ⟨(cap.children.map (listing caller)).any Listing.lists,
    (cap.children.map (listing caller)).any Listing.publishes⟩ := by
  cases cap
  simp_all [← listings_eq,listing]

theorem falseCaller_and (kind : cap.kind = .and) :
    falseCaller caller cap = ((listing caller cap).publishes && !admits caller cap) := by
  rw [listing_and kind,admits_and kind]
  cases cap
  simp_all [← listings_eq,← allAdmit_eq,falseCaller]

theorem falseCaller_or (kind : cap.kind = .or) :
    falseCaller caller cap = (!admits caller cap && cap.children.any (falseCaller caller)) := by
  rw [admits_or kind]
  cases cap
  simp_all [← anyAdmits_eq,← anyFalseCaller_eq,falseCaller]

theorem falseCaller_finiteSet (kind : cap.kind = .finiteSet) : falseCaller caller cap = false := by
  cases cap
  simp_all [falseCaller]

def Listing.cancel (left right : Listing) : Listing :=
  if !left.lists then right else if !right.lists then left else {}

theorem Listing.foldl_cancel (real : ∀ c ∈ conjuncts, c.publishes = true → c.lists = true) :
    conjuncts.foldl Listing.cancel {} = Listing.oddOut conjuncts := by
  induction conjuncts using List.reverseRecOn with
  | nil => rfl
  | append_singleton before last ih =>
    have earlier := ih fun c member => real c (by simp [member])
    have lastReal := real last (by simp)
    rw [foldl_concat,earlier]
    obtain ⟨lists,publishes⟩ := last
    unfold Listing.cancel Listing.oddOut
    rcases Nat.mod_two_eq_zero_or_one (before.countP Listing.lists) with even | odd
    · have next : (before.countP Listing.lists + 1) % 2 = 1 := by omega
      cases lists with
      | false =>
        have silent : publishes = false := Bool.eq_false_iff.mpr fun shown => absurd (lastReal shown) (by simp)
        simp [even,silent]
      | true => simp [even,next]
    · have next : (before.countP Listing.lists + 1) % 2 = 0 := by omega
      cases lists with
      | false => simp [odd]
      | true => simp [odd,next]

structure Lists (s : Shade) (shown : Caller → Listing) : Prop where
  determined : s.ond = false
  pathless : s.count = 0
  passable : s.nobody = false
  lists : ∀ caller, s.keys.isEmpty = !(shown caller).lists
  publishes : ∀ caller, caller ∈ s.keys.map RowKey.address ↔ (shown caller).publishes = true

theorem Lists.valid (known : Lists s shown) (caller : Caller) : s.valid = (shown caller).lists := by
  simp [Shade.valid,known.lists caller,known.pathless]

theorem Lists.real (known : Lists s shown) (caller : Caller) (publishes : (shown caller).publishes = true) :
    (shown caller).lists = true := by
  have member := (known.publishes caller).mpr publishes
  have filled : s.keys.isEmpty = false := by
    cases keys : s.keys with
    | nil => rw [keys] at member; simp at member
    | cons key rest => rfl
  simpa [known.lists caller] using filled

theorem Lists.meet (left : Lists s shown) (right : Lists s' shown') :
    s.meet s' = {keys:=if s.valid then if s'.valid then [] else s.keys else s'.keys} := by
  unfold Shade.meet Shade.productKeys
  cases valid : s.valid <;> cases valid' : s'.valid <;>
    simp [left.pathless,right.pathless,left.determined,right.determined,Shade.concatKeys,Ordered.insertKeys]
  simpa [Shade.valid,right.pathless] using valid'

theorem Lists.and_ (left : Lists s shown) (right : Lists s' shown') :
    Lists (s.and_ s') fun caller => (shown caller).cancel (shown' caller) := by
  have same : s.and_ s' = {keys:=if s.valid then if s'.valid then [] else s.keys else s'.keys} := by
    rw [Shade.and_,left.passable,right.passable,left.determined,right.determined,left.meet right]
    rfl
  rw [same]
  refine ⟨rfl,rfl,rfl,fun caller => ?_,fun caller => ?_⟩
  · rw [left.valid caller,right.valid caller,Listing.cancel]
    cases lists : (shown caller).lists <;> cases lists' : (shown' caller).lists <;>
      simp [left.lists caller,right.lists caller,lists,lists']
  · rw [left.valid caller,right.valid caller,Listing.cancel]
    cases lists : (shown caller).lists <;> cases lists' : (shown' caller).lists <;>
      simp [← left.publishes caller,← right.publishes caller]

theorem Lists.or_ (fresh : s.identity = false) (left : Lists s shown) (right : Lists s' shown') :
    Lists (s.or_ s') fun caller =>
    ⟨(shown caller).lists || (shown' caller).lists,(shown caller).publishes || (shown' caller).publishes⟩ := by
  unfold Shade.or_
  rw [fresh]
  refine ⟨?_,?_,?_,fun caller => ?_,fun caller => ?_⟩
  · simp [left.determined,right.determined]
  · simp [left.pathless,right.pathless]
  · simp [left.passable,right.passable]
  · simp [concatKeys_isEmpty,left.lists caller,right.lists caller]
  · rw [Bool.or_eq_true,← left.publishes caller,← right.publishes caller]
    simp only [Bool.false_eq_true,↓reduceIte,Shade.concatKeys,foldl_cons,foldl_nil,mem_map,
      Ordered.mem_insertKeys,not_mem_nil,false_or,or_and_right,exists_or]

theorem Lists.append (known : Lists s shown) (raw : List Condition) : Lists (s.append raw) shown := by
  unfold Shade.append
  split
  · exact known
  · exact ⟨known.determined,known.pathless,known.passable,known.lists,known.publishes⟩

theorem Lists.withhold (known : Lists s shown) (blocked : Bool) : Lists (s.withhold blocked) shown := by
  unfold Shade.withhold
  simpa [known.pathless] using known

def Listed (p : Projector) (cap : CapDict) : Prop :=
  Lists (shade p cap) (fun caller => listing caller cap)

theorem shadeAnd_lists (each : ∀ child ∈ children, Listed p child) (blocked : Bool) (known : Lists s shown) :
    Lists (shadeAnd p s blocked children).1
    (fun caller => (children.map (listing caller)).foldl .cancel (shown caller)) := by
  induction children generalizing s shown blocked with
  | nil => simpa [shadeAnd] using known
  | cons child rest ih =>
    exact ih (forall_mem_cons.mp each).2 _ (known.and_ (each child (by simp)))

theorem shadeOr_lists (each : ∀ child ∈ children, Listed p child) (fresh : s.identity = false) (known : Lists s shown) :
    Lists (shadeOr p s children)
    (fun caller => ⟨(shown caller).lists || (children.map (listing caller)).any Listing.lists,
      (shown caller).publishes || (children.map (listing caller)).any Listing.publishes⟩) := by
  induction children generalizing s shown with
  | nil => simpa [shadeOr] using known
  | cons child rest ih =>
    have step := ih (forall_mem_cons.mp each).2 (Shade.or_identity fresh)
      (known.or_ fresh (each child (by simp)))
    unfold shadeOr
    simpa [Bool.or_assoc] using step

theorem listed (p : Projector) (built : BuiltFrom AllowlistLeaf cap) : Listed p cap := by
  induction built with
  | @leaf cap notAnd notOr allowlist =>
    obtain ⟨kind,_,_,filled⟩ := allowlist
    have passable : isProvenEmpty cap = false := by
      cases members : cap.members with
      | none => simp [isProvenEmpty,members]
      | some list =>
        have some_member : list ≠ [] := by simpa [members] using filled
        simp [isProvenEmpty,members,some_member]
    rw [Listed,shade_finiteSet kind]
    refine ⟨rfl,rfl,passable,fun caller => ?_,fun caller => ?_⟩
    · rw [listing_finiteSet kind,Bool.not_not]
      have empty := rowsForFiniteSet_isEmpty cap cap.conditions
      rw [Bool.eq_iff_iff] at empty ⊢
      simpa using empty
    · rw [listing_finiteSet kind,decide_eq_true_eq]
      simp only [Shade.rows,rowsForFiniteSet,mem_map,Ordered.mem_unique]
      constructor
      · rintro ⟨key,⟨row,⟨m,member,rfl⟩,rfl⟩,rfl⟩
        exact ⟨m,member,(lower_lower m).symm⟩
      · rintro ⟨m,member,rfl⟩
        exact ⟨_,⟨_,⟨m,member,rfl⟩,rfl⟩,lower_lower m⟩
  | @and cap kind some_child built ih =>
    have start : Lists .empty fun _ => {} := ⟨rfl,rfl,rfl,fun _ => rfl,by simp [Shade.empty]⟩
    have shown := shadeAnd_lists ih false start
    rw [Listed,shade_and kind]
    have odd : ∀ caller, (cap.children.map (listing caller)).foldl Listing.cancel {} = listing caller cap := by
      intro caller
      rw [listing_and kind]
      refine Listing.foldl_cancel fun c member => ?_
      obtain ⟨child,inside,rfl⟩ := mem_map.mp member
      exact Lists.real (ih child inside) caller
    simp only [odd] at shown
    exact (shown.append cap.conditions).withhold _
  | @or cap kind some_child built ih =>
    obtain ⟨first,rest,split⟩ := exists_cons_of_ne_nil some_child
    rw [split] at ih
    have fresh := (built first (by simp [split])).fresh p
    have shown := shadeOr_lists (forall_mem_cons.mp ih).2 fresh (ih first (by simp))
    have joined : shadeOr p .empty cap.children = shadeOr p (shade p first) rest := by
      rw [split,shadeOr_first]
    rw [Listed,shade_or kind,joined]
    have same : (fun caller => listing caller cap) = fun caller =>
      ⟨(listing caller first).lists || (rest.map (listing caller)).any Listing.lists,
          (listing caller first).publishes || (rest.map (listing caller)).any Listing.publishes⟩ := by
      funext caller
      rw [listing_or kind,split]
      rfl
    rw [same]
    exact shown.append cap.conditions

theorem falseCaller_iff (built : BuiltFrom AllowlistLeaf cap) (caller : Caller) :
    falseCaller caller cap = true ↔ (listing caller cap).publishes = true ∧ admits caller cap = false := by
  induction built with
  | leaf _ _ allowlist =>
    obtain ⟨kind,_⟩ := allowlist
    rw [falseCaller_finiteSet kind,listing_finiteSet kind,admits_finiteSet kind]
    simp only [Bool.false_eq_true,decide_eq_true_eq,decide_eq_false_iff_not,mem_map,mem_filter,false_iff]
    rintro ⟨⟨m,⟨member,_⟩,same⟩,refused⟩
    exact refused ⟨m,member,same⟩
  | and kind _ _ _ =>
    rw [falseCaller_and kind]
    simp
  | @or cap kind _ _ ih =>
    rw [falseCaller_or kind,listing_or kind,Bool.and_eq_true,Bool.not_eq_true',and_comm]
    refine and_congr_left fun refused => ?_
    rw [admits_or kind,any_eq_false] at refused
    simp only [any_eq_true,mem_map,exists_exists_and_eq_and]
    constructor
    · rintro ⟨child,member,slipped⟩
      exact ⟨child,member,((ih child member).mp slipped).1⟩
    · rintro ⟨child,member,publishes⟩
      exact ⟨child,member,(ih child member).mpr ⟨publishes,by simpa using refused child member⟩⟩

section
variable {children : List CapDict} (each : ∀ child ∈ children, ∀ place, caller ∈ denoted given place child ↔
      admits caller child = true)
include each

theorem mem_denotedAnd
    (place : List Nat) (index : Nat) : caller ∈ denotedAnd given place index children ↔ children.all
    (admits caller) = true := by
  induction children generalizing index with
  | nil => simp [denotedAnd]
  | cons child rest ih =>
    unfold denotedAnd
    rw [Set.mem_inter_iff,each child (by simp),ih (forall_mem_cons.mp each).2,
      all_cons,Bool.and_eq_true]

theorem mem_denotedOr
    (place : List Nat) (index : Nat) : caller ∈ denotedOr given place index children ↔ children.any
    (admits caller) = true := by
  induction children generalizing index with
  | nil => simp [denotedOr]
  | cons child rest ih =>
    unfold denotedOr
    rw [Set.mem_union,each child (by simp),ih (forall_mem_cons.mp each).2,
      any_cons,Bool.or_eq_true]

end

theorem mem_denoted (built : BuiltFrom AllowlistLeaf cap) (given : Given) (place : List Nat) :
    caller ∈ denoted given place cap ↔ admits caller cap = true := by
  induction built generalizing place with
  | leaf _ _ allowlist =>
    rw [denoted_finiteSet allowlist.1,admits_finiteSet allowlist.1,decide_eq_true_eq]
    rfl
  | and kind _ _ ih =>
    rw [denoted_and kind,admits_and kind]
    exact mem_denotedAnd (fun child member place => ih child member place) place 0
  | or kind _ _ ih =>
    rw [denoted_or kind,admits_or kind]
    exact mem_denotedOr (fun child member place => ih child member place) place 0

-- Every published caller passes every conjunct, except where an odd conjunct
-- out publishes a refused one.
theorem published_callers_denoted_iff (p : Projector) (given : Given) (cap : CapDict)
    (built : BuiltFrom AllowlistLeaf cap) :
    ∃ work, ∀ budget, (∀ row ∈ (projectCapabilitySurface (p.under budget) cap).principalRows,
      row.address ∈ denoted given [] cap) ↔
      budget < work ∨ ∀ caller, falseCaller caller cap = false := by
  obtain ⟨work,answers⟩ := surface_answers p cap
  refine ⟨work,fun budget => ?_⟩
  by_cases short : budget < work
  · have stopped := (answers budget).2 short
    simp [short,stopped.2.2]
  · have answer := (answers budget).1 (Nat.not_lt.mp short)
    have published : ∀ caller, (∃ row ∈ (projectCapabilitySurface (p.under budget) cap).principalRows,
      row.address = caller) ↔ (listing caller cap).publishes = true := by
      intro caller
      rw [← (listed p built).publishes caller,← answer.listed,mem_map]
    simp only [short,false_or]
    constructor
    · intro sound caller
      refine Bool.eq_false_iff.mpr fun slipped => ?_
      obtain ⟨publishes,refused⟩ := (falseCaller_iff built caller).mp slipped
      obtain ⟨row,member,rfl⟩ := (published caller).mpr publishes
      have passes := (mem_denoted built given []).mp (sound row member)
      rw [refused] at passes
      exact absurd passes (by decide)
    · intro none row member
      have publishes := (published row.address).mp ⟨row,member,rfl⟩
      rw [mem_denoted built given []]
      refine Bool.not_eq_false _ ▸ fun refused => ?_
      have slipped := (falseCaller_iff built row.address).mpr ⟨publishes,refused⟩
      rw [none row.address] at slipped
      exact absurd slipped (by decide)

def thirdSigner : Caller := "0x3333333333333333333333333333333333333333"

def threeLists : CapDict := allOf [allowed [firstSigner],allowed [secondSigner],allowed [thirdSigner]]

theorem threeLists_built : BuiltFrom AllowlistLeaf threeLists := by
  refine .and rfl (by simp [threeLists,allOf]) fun child member => ?_
  simp only [threeLists,allOf,mem_cons,not_mem_nil,or_false] at member
  rcases member with rfl | rfl | rfl <;>
    exact .leaf (by decide) (by decide) ⟨rfl,rfl,rfl,by simp [allowed]⟩

theorem threeLists_publish_the_third : BuiltFrom AllowlistLeaf threeLists ∧
    (projectCapabilitySurface {} threeLists).principalRows.map Row.address = [thirdSigner] ∧
    thirdSigner ∉ denoted (fun _ _ => ∅) [] threeLists := by
  refine ⟨threeLists_built,by decide +kernel,?_⟩
  rw [mem_denoted threeLists_built]
  decide +kernel

theorem published_callers_denoted_iff_threeLists :
    ∃ work, ∀ budget,
      (∀ row ∈ (projectCapabilitySurface (Projector.under {} budget) threeLists).principalRows,
        row.address ∈ denoted (fun _ _ => ∅) [] threeLists) ↔
        budget < work ∨ ∀ caller, falseCaller caller threeLists = false :=
  published_callers_denoted_iff {} (fun _ _ => ∅) threeLists threeLists_built

end Psat.Surface
