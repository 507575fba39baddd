import Mathlib.Data.List.Perm.Basic
import Mathlib.Data.String.Basic
import Psat.Codec.Lossless
import Psat.General.Sorted

namespace Psat.Codec
open Psat.General List Dict
open Prod (fst)
open List (lookup)
open List (Forall₂ cons)
open List.Subset (refl)

section
variable (h : Hashing Text)

-- A stored form of a node: rebuilt, or a reference to an id it is known by.
inductive Emits (canonical : List (String × (Text × Text))) (ids : List String) : Json → Json → Prop
  | whole {node : Json} {children : List Json} : Forall₂ (Emits canonical ids) node.children children →
    Emits canonical ids node (rebuild node children)
  | ref {node : Json} {id : String} : Known h canonical node id → id ∈ ids → Emits canonical ids node (.reference id)

structure TableOk (roots : List Json) (canonical : List (String × (Text × Text))) (table : Guards) : Prop where
  distinct : (table.map fst).Nodup
  stored : ∀ id stored, lookup id table = some stored → ∃ node children, Node roots node ∧ Known h canonical node id ∧
    Forall₂ (Emits h canonical (table.map fst)) node.children children ∧ stored = rebuild node children

variable {h}

theorem Emits.mono_upto (extends_ : Extends canonical more) (grows : ids ⊆ others) (bound : Nat) :
    ∀ node out, sizeOf node ≤ bound → Emits h canonical ids node out → Emits h more others node out := by
  induction bound with
  | zero =>
    intro node out small
    have := node.sizeOf_pos
    omega
  | succ bound ih =>
    intro node out small emits
    cases emits with
    | whole children =>
      refine .whole (forall₂_imp_mem children ?_)
      intro child member stored first
      have smaller := Json.child_smaller member
      exact ih child stored (by omega) first
    | ref known listed => exact .ref (known.mono extends_) (grows listed)

theorem Emits.mono
    (emits : Emits h canonical ids node out) (extends_ : Extends canonical more) (grows : ids ⊆ others) :
    Emits h more others node out :=
  Emits.mono_upto extends_ grows (sizeOf node) node out (Nat.le_refl _) emits

theorem TableOk.extend (ok : TableOk h roots canonical table)
    (extends_ : Extends canonical more) : TableOk h roots more table where
  distinct := ok.distinct
  stored id stored found := by
    obtain ⟨node,children,inside,known,emitted,same⟩ := ok.stored id stored found
    exact ⟨node,children,inside,known.mono extends_,forall₂_imp_mem emitted fun _ _ _ first =>
      first.mono extends_ (refl _),same⟩

theorem keys_put (id : String) : table.map fst ⊆ (put id body table).map fst :=
  fun other member => (mem_keys_put id other body table).mpr (.inr member)

theorem TableOk.put (ok : TableOk h roots canonical table)
    {id : String} (inside : Node roots node) (known : Known h canonical node id)
    (emitted : Forall₂ (Emits h canonical (table.map fst)) node.children children) :
    TableOk h roots canonical (put id (rebuild node children) table) where
  distinct := put_nodup _ _ ok.distinct
  stored other stored found := by
    rw [lookup_put] at found
    split at found
    · rename_i same
      cases found
      rw [same]
      exact ⟨node,children,inside,known,forall₂_imp_mem emitted fun _ _ _ first => first.mono (.refl _) (keys_put _),
        rfl⟩
    · obtain ⟨before,others,within,knownBefore,emittedBefore,same⟩ := ok.stored other stored found
      exact ⟨before,others,within,knownBefore,
        forall₂_imp_mem emittedBefore fun _ _ _ first => first.mono (.refl _) (keys_put _),same⟩

-- One stretch of emission: forms and table grow and stay right.
structure Emitted (h : Hashing Text) (roots : List Json) (interner after : Interner Text) : Prop where
  valid : Valid h roots after.canonical
  table : TableOk h roots after.canonical after.table
  forms : Extends interner.canonical after.canonical
  keys : interner.table.map fst ⊆ after.table.map fst

theorem Emitted.trans {interner middle after : Interner Text} (first : Emitted h roots interner middle)
    (second : Emitted h roots middle after) :
    Emitted h roots interner after :=
  ⟨second.valid,second.table,first.forms.trans second.forms,List.Subset.trans first.keys second.keys⟩

variable [DecidableEq Text]

def EmitsOk (h : Hashing Text) (roots : List Json) (node : Json) : Prop :=
  ∀ interner : Interner Text, Valid h roots interner.canonical → TableOk h roots interner.canonical interner.table →
    ∃ out after, emit h node interner = .ok (out,after) ∧ Emitted h roots interner after ∧
      Emits h after.canonical (after.table.map fst) node out

theorem emitAll_ok (each : ∀ node ∈ nodes, EmitsOk h roots node) (interner : Interner Text)
    (valid : Valid h roots interner.canonical) (table : TableOk h roots interner.canonical interner.table) :
    ∃ outs after, emitAll h nodes interner = .ok (outs,after) ∧ Emitted h roots interner after ∧
      Forall₂ (Emits h after.canonical (after.table.map fst)) nodes outs := by
  induction nodes generalizing interner with
  | nil => exact ⟨[],interner,by rw [emitAll],⟨valid,table,.refl _,refl _⟩,.nil⟩
  | cons node rest ih =>
    obtain ⟨out,middle,found,emitted,first⟩ := each node mem_cons_self interner valid table
    obtain ⟨outs,after,remaining,later,others⟩ :=
      ih (fun other member => each other (mem_cons_of_mem node member)) middle emitted.valid emitted.table
    refine ⟨out :: outs,after,?_,emitted.trans later,.cons (first.mono later.forms later.keys) others⟩
    rw [emitAll,found]
    dsimp only
    rw [remaining]

theorem emit_ok (trees : Trees roots) (apart : NoSharedDigest h roots) (bound : Nat) : ∀ node, sizeOf node ≤ bound →
    Node roots node → EmitsOk h roots node := by
  induction bound with
  | zero =>
    intro node small
    have := node.sizeOf_pos
    omega
  | succ bound ih =>
    intro node small inside interner valid table
    have each : ∀ child ∈ node.children, EmitsOk h roots child := by
      intro child member
      have smaller := Json.child_smaller member
      exact ih child (by omega) (.child inside member)
    rw [emit]
    cases object : node.isObject with
    | false =>
      have childless : node.children = [] := by
        by_contra some
        rw [Json.isObject_of_children some] at object
        cases object
      have whole : Emits h interner.canonical (interner.table.map fst) node (rebuild node []) :=
        .whole (by rw [childless]; exact .nil)
      rw [rebuild,childless,isEmpty_nil,if_pos rfl] at whole
      exact ⟨node,interner,rfl,⟨valid,table,.refl _,refl _⟩,whole⟩
    | true =>
      obtain ⟨identified,canonical,found,identifiedValid,extends_,known,_⟩ :=
        identifies trees apart inside object interner valid
      have extended := table.extend extends_
      have start : Emitted h roots interner {interner with canonical} := ⟨identifiedValid,extended,extends_,refl _⟩
      rw [if_pos rfl,found]
      dsimp only
      split
      · rename_i listed
        rw [Bool.and_eq_true,decide_eq_true_eq] at listed
        exact ⟨_,_,rfl,start,.ref known listed.2⟩
      · obtain ⟨outs,after,children,emitted,stored⟩ :=
          emitAll_ok each {interner with canonical} identifiedValid extended
        rw [children]
        dsimp only
        split
        · exact ⟨_,after,rfl,start.trans emitted,.whole stored⟩
        · have knownAfter := known.mono emitted.forms
          refine ⟨_,_,rfl,start.trans ⟨emitted.valid,emitted.table.put inside knownAfter stored,emitted.forms,?_⟩,
            .ref knownAfter ?_⟩
          · exact List.Subset.trans emitted.keys (keys_put _)
          · exact (mem_keys_put _ _ _ _).mpr (.inl rfl)

end

-- Every guard already expanded is the node known by its id.
def MemoOk (h : Hashing Text) (roots : List Json) (canonical : List (String × (Text × Text))) (memo : Guards) : Prop :=
  ∀ id found, lookup id memo = some found → Node roots found ∧ Known h canonical found id

theorem MemoOk.put (ok : MemoOk h roots canonical memo) {id : String} (inside : Node roots node)
    (known : Known h canonical node id) : MemoOk h roots canonical (put id node memo) := by
  intro other found held
  rw [lookup_put] at held
  split at held
  · rename_i same
    cases held
    rw [same]
    exact ⟨inside,known⟩
  · exact ok other found held

structure Restores (h : Hashing Text) (roots : List Json) (canonical : List (String × (Text × Text)))
    (node : Json) (result : Json × Guards) : Prop where
  value : result.1 = node
  memo : MemoOk h roots canonical result.2

theorem rebuild_leaf (none : node.children = []) : rebuild node children = node := by
  rw [rebuild,none,isEmpty_nil,if_pos rfl]

theorem rebuild_branch (some : node.children ≠ []) : rebuild node children = node.withChildren children := by
  rw [rebuild,if_neg (by simpa using some)]

theorem rebuild_children (count : node.children.length = children.length) :
    (rebuild node children).children = children := by
  by_cases none : node.children = []
  · rw [rebuild_leaf none,none]
    rw [none] at count
    exact (eq_nil_of_length_eq_zero count.symm).symm
  · rw [rebuild_branch none]
    exact Json.children_withChildren (Json.isObject_of_children none) children

theorem rebuild_back (count : node.children.length = children.length) : rebuild
    (rebuild node children) node.children = node := by
  have own := rebuild_children count
  by_cases none : node.children = []
  · rw [rebuild_leaf none,rebuild_leaf none]
  · have filled : (rebuild node children).children ≠ [] := by
      rw [own]
      intro empty
      rw [empty] at count
      exact none (eq_nil_of_length_eq_zero count)
    rw [rebuild_branch filled,rebuild_branch none]
    exact Json.withChildren_back none children

theorem rebuild_ref (plain : node.ref = none) : (rebuild node children).ref = none := by
  unfold rebuild
  split
  · exact plain
  · rename_i some
    exact Json.withChildren_ref (by simpa using some) children

theorem expandAll_restores {follow : String → Guards → Json × Guards} (related : Forall₂ R nodes outs)
    (each : ∀ node ∈ nodes, ∀ out memo, R node out → MemoOk h roots canonical memo →
      Restores h roots canonical node (expandWith follow out memo))
    (memo : Guards) (ok : MemoOk h roots canonical memo) :
    (expandAll follow outs memo).1 = nodes ∧ MemoOk h roots canonical (expandAll follow outs memo).2 := by
  induction related generalizing memo with
  | nil =>
    rw [expandAll]
    exact ⟨rfl,ok⟩
  | cons first _ ih =>
    have head := each _ mem_cons_self _ memo first ok
    obtain ⟨rest,final⟩ := ih (forall_mem_cons.mp each).2 _ head.memo
    rw [expandAll]
    exact ⟨by rw [← head.value,← rest],final⟩

theorem expandWith_body {follow : String → Guards → Json × Guards} (plain : node.ref = none)
    (related : Forall₂ R node.children outs)
    (each : ∀ child ∈ node.children, ∀ out memo, R child out → MemoOk h roots canonical memo →
      Restores h roots canonical child (expandWith follow out memo))
    (memo : Guards) (ok : MemoOk h roots canonical memo) : Restores h roots canonical node
    (expandWith follow (rebuild node outs) memo) := by
  obtain ⟨children,final⟩ := expandAll_restores related each memo ok
  rw [expandWith,rebuild_ref plain]
  dsimp only
  rw [rebuild_children related.length_eq]
  refine ⟨?_,final⟩
  rw [children]
  exact rebuild_back related.length_eq

-- References to nodes up to a size lead back to them.
def Follows (h : Hashing Text) (roots : List Json) (canonical : List (String × (Text × Text))) (table : Guards)
    (follow : String → Guards → Json × Guards) (bound : Nat) : Prop :=
  ∀ node id memo, sizeOf node ≤ bound → Node roots node → Known h canonical node id → id ∈ table.map fst →
    MemoOk h roots canonical memo → Restores h roots canonical node (follow id memo)

theorem expandWith_restores {follow : String → Guards → Json × Guards}
    (plain : ∀ node, Node roots node → node.ref = none)
    (follows : Follows h roots canonical table follow bound) (size : Nat) :
    ∀ node out memo, sizeOf node ≤ size → sizeOf node ≤ bound → Node roots node → Emits h canonical
    (table.map fst) node out →
      MemoOk h roots canonical memo → Restores h roots canonical node (expandWith follow out memo) := by
  induction size with
  | zero =>
    intro node out memo small
    have := node.sizeOf_pos
    omega
  | succ size ih =>
    intro node out memo small within inside emits ok
    cases emits with
    | ref known listed =>
      rw [expandWith]
      exact follows node _ memo within inside known listed ok
    | whole children =>
      refine expandWith_body (plain node inside) children ?_ memo ok
      intro child member stored memo emitted ok
      have smaller := Json.child_smaller member
      exact ih child stored memo (by omega) (by omega) (.child inside member) emitted ok

-- The guards being expanded are all larger than the nodes below them.
structure ActiveOk (h : Hashing Text) (roots : List Json) (canonical : List (String × (Text × Text)))
    (table : Guards) (active : List String)
    (bound : Nat) : Prop where
  nodup : active.Nodup
  listed : active ⊆ table.map fst
  larger : ∀ id ∈ active, ∃ node, Node roots node ∧ Known h canonical node id ∧ bound < sizeOf node

theorem follow_restores (ok : TableOk h roots canonical table)
    {expand : List String → Json → Guards → Json × Guards} (activeOk : ActiveOk h roots canonical table active bound)
    (expands : ∀ node id, sizeOf node ≤ bound → Node roots node → Known h canonical node id →
      id ∈ table.map fst → id ∉ active →
        ∀ outs memo, Forall₂ (Emits h canonical (table.map fst)) node.children outs → MemoOk h roots canonical memo →
          Restores h roots canonical node (expand (id :: active) (rebuild node outs) memo)) :
    Follows h roots canonical table (follow table expand active) bound := by
  intro node id memo small inside known listed memoOk
  unfold follow
  cases held : lookup id memo with
  | some found =>
    obtain ⟨foundInside,foundKnown⟩ := memoOk id found held
    exact ⟨(known.same foundKnown).symm,memoOk⟩
  | none =>
    cases present : lookup id table with
    | none => exact absurd listed ((lookup_eq_none id table).mp present)
    | some stored =>
      obtain ⟨other,outs,otherInside,otherKnown,emitted,same⟩ := ok.stored id stored present
      have alike := known.same otherKnown
      subst alike
      have idle : id ∉ active := by
        intro running
        obtain ⟨larger,largerInside,largerKnown,above⟩ := activeOk.larger id running
        rw [← known.same largerKnown] at above
        omega
      have restored := expands node id small inside known listed idle outs memo emitted memoOk
      rw [← same] at restored
      dsimp only
      rw [if_neg idle]
      refine ⟨restored.value,?_⟩
      have put := restored.memo.put inside known
      rw [← restored.value] at put
      exact put

theorem ActiveOk.push (activeOk : ActiveOk h roots canonical table active bound) {id : String}
    (small : sizeOf node ≤ bound) (inside : Node roots node) (known : Known h canonical node id)
    (listed : id ∈ table.map fst)
    (idle : id ∉ active) : ActiveOk h roots canonical table (id :: active) (sizeOf node - 1) where
  nodup := nodup_cons.mpr ⟨idle,activeOk.nodup⟩
  listed := cons_subset.mpr ⟨listed,activeOk.listed⟩
  larger other member := by
    rcases mem_cons.mp member with same | below
    · rw [same]
      have := node.sizeOf_pos
      exact ⟨node,inside,known,by omega⟩
    · obtain ⟨larger,largerInside,largerKnown,above⟩ := activeOk.larger other below
      exact ⟨larger,largerInside,largerKnown,by omega⟩

structure Decodes (h : Hashing Text) (roots : List Json) (canonical : List (String × (Text × Text))) (table : Guards) :
    Prop where
  plain : ∀ node, Node roots node → node.ref = none
  ok : TableOk h roots canonical table

theorem expand_follows (decodes : Decodes h roots canonical table) (rounds : Nat) :
    ∀ active bound, ActiveOk h roots canonical table active bound → table.length < rounds + 1 + active.length →
      Follows h roots canonical table (follow table (expand table rounds) active) bound := by
  induction rounds with
  | zero =>
    intro active bound activeOk room
    refine follow_restores decodes.ok activeOk ?_
    intro node id small inside known listed idle
    have pushed := activeOk.push small inside known listed idle
    have fits := (subperm_of_subset pushed.nodup pushed.listed).length_le
    rw [length_cons,length_map] at fits
    omega
  | succ rounds ih =>
    intro active bound activeOk room
    refine follow_restores decodes.ok activeOk ?_
    intro node id small inside known listed idle outs memo emitted memoOk
    have pushed := activeOk.push small inside known listed idle
    have follows := ih (id :: active) (sizeOf node - 1) pushed (by rw [length_cons]; omega)
    refine expandWith_body (decodes.plain node inside) emitted ?_ memo memoOk
    intro child member stored memo stores memoOk
    have smaller := Json.child_smaller member
    exact expandWith_restores decodes.plain follows (sizeOf child) child stored memo (Nat.le_refl _)
      (by omega) (.child inside member) stores memoOk

theorem expand_restores (decodes : Decodes h roots canonical table) (inside : Node roots node)
    (emits : Emits h canonical (table.map fst) node out) (memoOk : MemoOk h roots canonical memo) :
    Restores h roots canonical node (expand table (table.length + 1) [] out memo) := by
  have idle : ActiveOk h roots canonical table [] (sizeOf node) :=
    ⟨nodup_nil,nil_subset _,fun _ member => absurd member not_mem_nil⟩
  have follows := expand_follows decodes table.length [] (sizeOf node) idle (by rw [length_nil]; omega)
  exact expandWith_restores decodes.plain follows (sizeOf node) node out memo (Nat.le_refl _)
    (Nat.le_refl _) inside emits memoOk

section
variable {h : Hashing Text}

def sitePredicates (scopes : EffectScopes) : List Json :=
  scopes.flatMap fun entry => entry.2.filterMap (lookup "predicate")

inductive StoredSite (h : Hashing Text) (canonical : List (String × (Text × Text))) (ids : List String) (site : Site) :
    Site → Prop
  | bare : lookup "predicate" site = none → StoredSite h canonical ids site site
  | governed {predicate emitted : Json} : lookup "predicate" site = some predicate →
    Emits h canonical ids predicate emitted →
    StoredSite h canonical ids site (put "predicate" emitted site)

theorem StoredSite.mono (stored : StoredSite h canonical ids site out) (extends_ : Extends canonical more)
    (grows : ids ⊆ others) :
    StoredSite h more others site out := by
  cases stored with
  | bare missing => exact .bare missing
  | governed found emits => exact .governed found (emits.mono extends_ grows)

def StoredEntry (h : Hashing Text) (canonical : List (String × (Text × Text))) (ids : List String)
    (entry out : String × List Site) : Prop :=
  out.1 = entry.1 ∧ Forall₂ (StoredSite h canonical ids) entry.2 out.2

theorem StoredEntry.mono
    (stored : StoredEntry h canonical ids entry out) (extends_ : Extends canonical more) (grows : ids ⊆ others) :
    StoredEntry h more others entry out :=
  ⟨stored.1,forall₂_imp_mem stored.2 fun _ _ _ first => first.mono extends_ grows⟩

theorem sitePredicates_inside (inside : ∀ predicate ∈ sitePredicates (entry :: rest), Node roots predicate) :
    (∀ site ∈ entry.2, ∀ predicate, lookup "predicate" site = some predicate → Node roots predicate) ∧
      ∀ predicate ∈ sitePredicates rest, Node roots predicate := by
  refine ⟨?_,fun predicate member => inside predicate (mem_append_right _ member)⟩
  intro site member predicate found
  exact inside predicate (mem_append_left _ (mem_filterMap.mpr ⟨site,member,found⟩))

section
variable [DecidableEq Text]

theorem counts_predicates (trees : Trees (sitePredicates scopes)) (apart : NoSharedDigest h (sitePredicates scopes)) :
    ∀ node ∈ predicates scopes, Counts h (sitePredicates scopes) node := by
  intro node member
  obtain ⟨entry,listed,inside⟩ := mem_flatMap.mp member
  obtain ⟨site,among,same⟩ := mem_map.mp inside
  cases found : lookup "predicate" site with
  | none =>
    rw [found] at same
    subst same
    intro interner valid
    exact ⟨interner.uses,interner.canonical,by rw [count]; rfl,valid⟩
  | some predicate =>
    rw [found] at same
    subst same
    have root : Node (sitePredicates scopes) predicate :=
      .root (mem_flatMap.mpr ⟨entry,listed,mem_filterMap.mpr ⟨site,among,found⟩⟩)
    exact count_ok trees apart (sizeOf predicate) predicate (Nat.le_refl _) root

variable (trees : Trees roots) (apart : NoSharedDigest h roots) (interner : Interner Text)
    (valid : Valid h roots interner.canonical) (table : TableOk h roots interner.canonical interner.table)
include trees apart valid table

theorem emitSites_ok (sites : List Site)
    (inside : ∀ site ∈ sites, ∀ predicate, lookup "predicate" site = some predicate → Node roots predicate) :
    ∃ outs after, emitSites h sites interner = .ok (outs,after) ∧ Emitted h roots interner after ∧
      Forall₂ (StoredSite h after.canonical (after.table.map fst)) sites outs := by
  induction sites generalizing interner with
  | nil => exact ⟨[],interner,rfl,⟨valid,table,.refl _,refl _⟩,.nil⟩
  | cons site rest ih =>
    have first : ∃ out middle, emitSite h site interner = .ok (out,middle) ∧ Emitted h roots interner middle ∧
      StoredSite h middle.canonical (middle.table.map fst) site out := by
      unfold emitSite
      cases found : lookup "predicate" site with
      | none => exact ⟨site,interner,rfl,⟨valid,table,.refl _,refl _⟩,.bare found⟩
      | some predicate =>
        obtain ⟨out,middle,emitted,grown,emits⟩ := emit_ok trees apart (sizeOf predicate) predicate (Nat.le_refl _)
          (inside site mem_cons_self predicate found) interner valid table
        dsimp only
        rw [emitted]
        exact ⟨_,middle,rfl,grown,.governed found emits⟩
    obtain ⟨out,middle,emitted,grown,stored⟩ := first
    obtain ⟨outs,after,remaining,later,others⟩ :=
      ih middle grown.valid grown.table (fun other member => inside other (mem_cons_of_mem site member))
    refine ⟨out :: outs,after,?_,grown.trans later,.cons (stored.mono later.forms later.keys) others⟩
    rw [emitSites,emitted]
    dsimp only
    rw [remaining]

theorem emitScopes_ok (scopes : EffectScopes) (inside : ∀ predicate ∈ sitePredicates scopes, Node roots predicate) :
    ∃ outs after, emitScopes h scopes interner = .ok (outs,after) ∧ Emitted h roots interner after ∧
      Forall₂ (StoredEntry h after.canonical (after.table.map fst)) scopes outs := by
  induction scopes generalizing interner with
  | nil => exact ⟨[],interner,rfl,⟨valid,table,.refl _,refl _⟩,.nil⟩
  | cons entry rest ih =>
    obtain ⟨signature,sites⟩ := entry
    obtain ⟨own,further⟩ := sitePredicates_inside inside
    obtain ⟨out,middle,emitted,grown,stored⟩ := emitSites_ok trees apart interner valid table sites own
    obtain ⟨outs,after,remaining,later,others⟩ := ih middle grown.valid grown.table further
    refine ⟨(signature,out) :: outs,after,?_,grown.trans later,
      .cons (StoredEntry.mono ⟨rfl,stored⟩ later.forms later.keys) others⟩
    rw [emitScopes,emitted]
    dsimp only
    rw [remaining]

end

section
variable {trees : PredicateTrees} {memo : Guards} (decodes : Decodes h roots canonical table)
    (guards : trees.effectGuards = some table)
    (memoOk : MemoOk h roots canonical memo)
include decodes guards memoOk

theorem expandSite_restores (inside : ∀ predicate, lookup "predicate" site = some predicate → Node roots predicate)
    (stored : StoredSite h canonical (table.map fst) site out) :
    (expandSite trees out memo).1 = site ∧ MemoOk h roots canonical (expandSite trees out memo).2 := by
  unfold expandSite
  cases stored with
  | bare missing =>
    rw [if_neg ((lookup_eq_none _ _).mp missing)]
    exact ⟨rfl,memoOk⟩
  | governed found emits =>
    rename_i predicate emitted
    have restored := expand_restores decodes (inside predicate found) emits memoOk
    rw [if_pos ((mem_keys_put _ _ _ _).mpr (.inl rfl))]
    have read : expandSitePredicate trees (put "predicate" emitted site) memo = expand table
      (table.length + 1) [] emitted memo := by
      unfold expandSitePredicate
      rw [guards,lookup_put,if_pos rfl]
      rfl
    rw [read]
    refine ⟨?_,restored.memo⟩
    dsimp only
    rw [restored.value]
    exact put_back found

theorem expandSites_restores (stored : Forall₂ (StoredSite h canonical (table.map fst)) sites outs)
    (inside : ∀ site ∈ sites, ∀ predicate, lookup "predicate" site = some predicate → Node roots predicate) :
    (expandSites trees outs memo).1 = sites ∧ MemoOk h roots canonical (expandSites trees outs memo).2 := by
  induction stored generalizing memo with
  | nil => exact ⟨rfl,memoOk⟩
  | cons first _ ih =>
    obtain ⟨head,kept⟩ := expandSite_restores decodes guards memoOk (inside _ mem_cons_self) first
    obtain ⟨rest,final⟩ := ih kept (forall_mem_cons.mp inside).2
    exact ⟨congrArg₂ cons head rest,final⟩

theorem expandScopes_restores (stored : Forall₂ (StoredEntry h canonical (table.map fst)) scopes outs)
    (inside : ∀ predicate ∈ sitePredicates scopes, Node roots predicate) : expandScopes trees outs memo = scopes := by
  induction stored generalizing memo with
  | nil => rfl
  | cons first _ ih =>
    obtain ⟨own,further⟩ := sitePredicates_inside inside
    obtain ⟨head,kept⟩ := expandSites_restores decodes guards memoOk first.2 own
    exact congrArg₂ cons (Prod.ext first.1 head) (ih kept further)

end

end

theorem expand_encode [DecidableEq Text] (h : Hashing Text) (scopes : EffectScopes)
    (trees : Trees (sitePredicates scopes)) (plain : ∀ node, Node (sitePredicates scopes) node → node.ref = none)
    (apart : NoSharedDigest h (sitePredicates scopes)) :
    ∃ stored, encodeEffectScopes h scopes = .ok stored ∧ expandEffectScopes stored = scopes := by
  have start : Valid h (sitePredicates scopes) ([] : List (String × (Text × Text))) := by
    intro id forms held
    cases held
  have inside : ∀ predicate ∈ sitePredicates scopes, Node (sitePredicates scopes) predicate :=
    fun _ member => .root member
  obtain ⟨uses,canonical,counted,countedValid⟩ := countAll_ok (counts_predicates trees apart) {} start
  obtain ⟨outs,after,emitted,grown,stored⟩ := emitScopes_ok trees apart {uses,canonical} countedValid
    ⟨nodup_nil,fun _ _ held => by cases held⟩ scopes inside
  refine ⟨{effectScopes:=outs,effectGuards:=some after.table},?_,?_⟩
  · unfold encodeEffectScopes
    rw [counted]
    dsimp only
    rw [emitted]
  · exact expandScopes_restores ⟨plain,grown.table⟩ rfl (fun _ _ held => by cases held) stored inside

-- A text with its length before it.
def spelled (text : String) : List Char := List.replicate text.toList.length '|' ++ ':' :: text.toList

-- One way to dump: every value written with its kind and its end.
mutual

def written : Json → List Char
  | .null => ['n']
  | .bool value => ['b',if value then '1' else '0']
  | .number text => '#' :: spelled text
  | .string text => 's' :: spelled text
  | .array items => '[' :: writtenItems items
  | .object fields => 'o' :: writtenFields fields

def writtenItems : List Json → List Char
  | [] => ['.']
  | item :: rest => ',' :: (written item ++ writtenItems rest)

def writtenFields : List (String × Json) → List Char
  | [] => ['.']
  | (key,value) :: rest => ',' :: (spelled key ++ (written value ++ writtenFields rest))

end

theorem spelled_inj {one other : String} (same : spelled one ++ rest = spelled other ++ others) :
    one = other ∧ rest = others := by
  have bars : ∀ (m n : Nat) (tail tail' : List Char), replicate m '|' ++ ':' :: tail = replicate n '|' ++ ':' :: tail' →
    m = n ∧ tail = tail' := by
    intro m
    induction m with
    | zero =>
      intro n tail tail' same
      cases n with
      | zero => exact ⟨rfl,(List.cons.inj same).2⟩
      | succ n => exact absurd (List.cons.inj same).1 (by decide)
    | succ m ih =>
      intro n tail tail' same
      cases n with
      | zero => exact absurd (List.cons.inj same).1 (by decide)
      | succ n =>
        obtain ⟨counts,tails⟩ := ih n tail tail' (List.cons.inj same).2
        exact ⟨congrArg Nat.succ counts,tails⟩
  simp only [spelled,append_assoc,List.cons_append] at same
  obtain ⟨counts,tails⟩ := bars _ _ _ _ same
  obtain ⟨texts,ends⟩ := append_inj tails counts
  exact ⟨String.toList_inj.mp texts,ends⟩

mutual

theorem written_inj (one other : Json) (rest others : List Char)
    (same : written one ++ rest = written other ++ others) : one = other ∧ rest = others := by
  cases one with
  | null =>
    cases other with
    | null => exact ⟨rfl,(List.cons.inj same).2⟩
    | _ => exact absurd (List.cons.inj same).1 (by decide)
  | bool value =>
    cases other with
    | bool otherValue =>
      obtain ⟨digits,ends⟩ := List.cons.inj (List.cons.inj same).2
      refine ⟨congrArg Json.bool ?_,ends⟩
      revert digits
      cases value <;> cases otherValue <;> decide
    | _ => exact absurd (List.cons.inj same).1 (by decide)
  | number text =>
    cases other with
    | number otherText =>
      obtain ⟨texts,ends⟩ := spelled_inj (List.cons.inj same).2
      exact ⟨congrArg Json.number texts,ends⟩
    | _ => exact absurd (List.cons.inj same).1 (by decide)
  | string text =>
    cases other with
    | string otherText =>
      obtain ⟨texts,ends⟩ := spelled_inj (List.cons.inj same).2
      exact ⟨congrArg Json.string texts,ends⟩
    | _ => exact absurd (List.cons.inj same).1 (by decide)
  | array items =>
    cases other with
    | array otherItems =>
      rw [written,written] at same
      obtain ⟨alike,ends⟩ := writtenItems_inj items otherItems rest others (List.cons.inj same).2
      exact ⟨congrArg Json.array alike,ends⟩
    | _ => exact absurd (List.cons.inj same).1 (by decide)
  | object fields =>
    cases other with
    | object otherFields =>
      rw [written,written] at same
      obtain ⟨alike,ends⟩ := writtenFields_inj fields otherFields rest others (List.cons.inj same).2
      exact ⟨congrArg Json.object alike,ends⟩
    | _ => exact absurd (List.cons.inj same).1 (by decide)

theorem writtenItems_inj (items otherItems : List Json) (rest others : List Char)
    (same : writtenItems items ++ rest = writtenItems otherItems ++ others) : items = otherItems ∧ rest = others := by
  cases items with
  | nil =>
    cases otherItems with
    | nil => exact ⟨rfl,(List.cons.inj same).2⟩
    | cons => exact absurd (List.cons.inj same).1 (by decide)
  | cons item items =>
    cases otherItems with
    | nil => exact absurd (List.cons.inj same).1 (by decide)
    | cons otherItem otherItems =>
      simp only [writtenItems,List.cons_append,append_assoc,List.cons.injEq,true_and] at same
      obtain ⟨rfl,further⟩ := written_inj item otherItem _ _ same
      obtain ⟨rfl,ends⟩ := writtenItems_inj items otherItems rest others further
      exact ⟨rfl,ends⟩

theorem writtenFields_inj (fields otherFields : List (String × Json)) (rest others : List Char)
    (same : writtenFields fields ++ rest = writtenFields otherFields ++ others) :
    fields = otherFields ∧ rest = others := by
  cases fields with
  | nil =>
    cases otherFields with
    | nil => exact ⟨rfl,(List.cons.inj same).2⟩
    | cons => exact absurd (List.cons.inj same).1 (by decide)
  | cons field fields =>
    cases otherFields with
    | nil => exact absurd (List.cons.inj same).1 (by decide)
    | cons otherField otherFields =>
      obtain ⟨key,value⟩ := field
      obtain ⟨otherKey,otherValue⟩ := otherField
      simp only [writtenFields,List.cons_append,append_assoc,List.cons.injEq,true_and] at same
      obtain ⟨rfl,values⟩ := spelled_inj same
      obtain ⟨rfl,further⟩ := written_inj value otherValue _ _ values
      obtain ⟨rfl,ends⟩ := writtenFields_inj fields otherFields rest others further
      exact ⟨rfl,ends⟩

end

mutual

def sortedKeys : Json → Json
  | .array items => .array (sortedItems items)
  | .object fields => .object (Sorted.sortBy fst (sortedFields fields))
  | node => node

def sortedItems : List Json → List Json
  | [] => []
  | item :: rest => sortedKeys item :: sortedItems rest

def sortedFields : List (String × Json) → List (String × Json)
  | [] => []
  | (key,value) :: rest => (key,sortedKeys value) :: sortedFields rest

end

-- A hash without collisions: the text itself.
def writtenHashing : Hashing String where
  dumps node := String.ofList (written node)
  sortedDumps node := String.ofList (written (sortedKeys node))
  length := String.length
  digest
    | .canonical text => "canonical:" ++ text
    | .exact text => "exact:" ++ text
  dumps_injective one other same := by
    have texts := String.ofList_inj.mp same
    rw [← append_nil (written one),← append_nil (written other)] at texts
    exact (written_inj one other [] [] texts).1

theorem writtenHashing_apart (roots : List Json) : NoSharedDigest writtenHashing roots := by
  intro one other _ _ digests
  have texts := congrArg String.toList digests
  cases one <;> cases other
  all_goals simp only [writtenHashing,String.toList_append] at texts
  · rw [String.toList_inj.mp (append_cancel_left texts)]
  · exact absurd (List.cons.inj texts).1 (by decide)
  · exact absurd (List.cons.inj texts).1 (by decide)
  · rw [String.toList_inj.mp (append_cancel_left texts)]

def callerIs (holder : String) : Json :=
  .object [("op",.string "LEAF"),
    ("leaf",.object [("kind",.string "equality"),("expression",.string ("msg.sender == " ++ holder))])]

-- The same check with its keys in another order.
def callerIsTurned (holder : String) : Json :=
  .object [("leaf",.object [("kind",.string "equality"),("expression",.string ("msg.sender == " ++ holder))]),
    ("op",.string "LEAF")]

def anyOf (children : List Json) : Json := .object [("op",.string "OR"),("children",.array children)]

-- A guard shared whole, a part of it shared alone, and the same part turned.
def guardedSites : EffectScopes := [
  ("pause()",[[("id",.string "pause()/1"),("predicate",anyOf [callerIs "owner",callerIs "guardian"])]]),
  ("mint()",[
    [("predicate",anyOf [anyOf [callerIs "owner",callerIs "guardian"],callerIsTurned "owner"]),
      ("id",.string "mint()/4")],
    [("id",.string "mint()/7"),("predicate",callerIs "owner")],
    [("id",.string "mint()/9"),("predicate",.null)],
    [("id",.string "mint()/11")]])]

def guardedNodes : List Json := [anyOf [callerIs "owner",callerIs "guardian"],
  anyOf [anyOf [callerIs "owner",callerIs "guardian"],callerIsTurned "owner"],callerIs "owner",.null,
  callerIs "guardian",callerIsTurned "owner"]

theorem guardedNodes_children (member : node ∈ guardedNodes) (below : child ∈ node.children) :
    child ∈ guardedNodes ∧ child.isObject = true := by
  simp only [guardedNodes,mem_cons,not_mem_nil,or_false] at member ⊢
  rcases member with rfl | rfl | rfl | rfl | rfl | rfl
  · change child ∈ [callerIs "owner",callerIs "guardian"] at below
    simp only [mem_cons,not_mem_nil,or_false] at below
    rcases below with rfl | rfl <;> exact ⟨by tauto,rfl⟩
  · change child ∈ [anyOf [callerIs "owner",callerIs "guardian"],callerIsTurned "owner"] at below
    simp only [mem_cons,not_mem_nil,or_false] at below
    rcases below with rfl | rfl <;> exact ⟨by tauto,rfl⟩
  all_goals cases below

theorem guardedSites_node (inside : Node (sitePredicates guardedSites) node) : node ∈ guardedNodes := by
  induction inside with
  | root member => exact mem_append_left _ (show _ ∈ guardedNodes.take 4 from member)
  | child _ below member => exact (guardedNodes_children member below).1

theorem expand_encode_guardedSites : ∃ stored, encodeEffectScopes writtenHashing guardedSites = .ok stored ∧
    expandEffectScopes stored = guardedSites := by
  refine expand_encode writtenHashing guardedSites (fun node inside child below => ?_) (fun node inside => ?_)
    (writtenHashing_apart _)
  · exact (guardedNodes_children (guardedSites_node inside) below).2
  · have listed := guardedSites_node inside
    simp only [guardedNodes,mem_cons,not_mem_nil,or_false] at listed
    rcases listed with rfl | rfl | rfl | rfl | rfl | rfl <;> rfl

end Psat.Codec
