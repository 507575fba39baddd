import Psat.Codec.Scopes

namespace Psat.Codec
open Psat.General List
open List (Forall₂ lookup)

inductive Node (roots : List Json) : Json → Prop
  | root {node : Json} : node ∈ roots → Node roots node
  | child {node child : Json} : Node roots node → child ∈ node.children → Node roots child

-- The children of every node are nodes again, so dicts.
def Trees (roots : List Json) : Prop := ∀ node, Node roots node → ∀ child ∈ node.children, child.isObject = true

section
variable [DecidableEq Text] (h : Hashing Text)

-- The ids that a node can be given, over those of its children.
inductive MayName : Json → String → Prop
  | canonical {node : Json} {ids : List String} : node.isObject = true → Forall₂ MayName node.children ids →
    MayName node (h.digest (.canonical (h.sortedDumps (shell node ids))))
  | exact {node : Json} {ids : List String} : node.isObject = true → Forall₂ MayName node.children ids →
    MayName node (h.digest (.exact (h.dumps (shell node ids))))

-- What is dumped for a node: its ids in place of its children.
inductive Content (roots : List Json) : Json → Prop
  | shell {node : Json} {ids : List String} : Node roots node → node.isObject = true →
    Forall₂ (MayName h) node.children ids → Content roots (shell node ids)

inductive Hashed (roots : List Json) : Preimage Text → Prop
  | canonical {content : Json} : Content h roots content → Hashed roots (.canonical (h.sortedDumps content))
  | exact {content : Json} : Content h roots content → Hashed roots (.exact (h.dumps content))

-- Distinct texts that are hashed never share a digest.
def NoSharedDigest (roots : List Json) : Prop :=
  ∀ one other, Hashed h roots one → Hashed h roots other → h.digest one = h.digest other → one = other

-- A node known by an id: its exact form is the one held for that id.
inductive Known (canonical : List (String × (Text × Text))) : Json → String → Prop
  | object {node : Json} {ids : List String} {id : String} : node.isObject = true →
    Forall₂ (Known canonical) node.children ids →
    lookup id canonical = some (h.sortedDumps (shell node ids),h.dumps (shell node ids)) → Known canonical node id

structure Entry (roots : List Json) (id : String) (forms : Text × Text) (content : Json) : Prop where
  hashed : Content h roots content
  dumped : forms = (h.sortedDumps content,h.dumps content)
  named : id = h.digest (.canonical forms.1) ∨ id = h.digest (.exact forms.2)

def Valid (roots : List Json) (canonical : List (String × (Text × Text))) : Prop :=
  ∀ id forms, lookup id canonical = some forms → ∃ content, Entry h roots id forms content

end

theorem forall₂_imp_mem (related : Forall₂ R items others)
    (implies : ∀ item ∈ items, ∀ other, R item other → S item other) : Forall₂ S items others := by
  induction related with
  | nil => exact .nil
  | cons first _ ih =>
    exact .cons (implies _ mem_cons_self _ first) (ih (forall_mem_cons.mp implies).2)

theorem forall₂_same (left : Forall₂ R items shared)
    (right : Forall₂ S others shared) (same : ∀ item ∈ items, ∀ other ∈ others, ∀ name, R item name →
      S other name → item = other) :
    items = others := by
  induction left generalizing others with
  | nil =>
    cases right
    rfl
  | cons first _ ih =>
    cases right with
    | cons second remaining =>
      have heads := same _ mem_cons_self _ mem_cons_self _ first second
      have tails := ih remaining fun item member other inside => same item (mem_cons_of_mem _ member) other
        (mem_cons_of_mem _ inside)
      rw [heads,tails]

theorem map_string_injective {ids others : List String} (same : ids.map Json.string = others.map Json.string) :
    ids = others :=
  map_injective_iff.mpr (fun _ _ => Json.string.inj) same

theorem shell_inj (count : one.children.length = ids.length)
    (otherCount : other.children.length = otherIds.length) (same : shell one ids = shell other otherIds) :
    ids = otherIds ∧ (one.children = other.children → one = other) := by
  unfold shell at same
  by_cases none : one.children = []
  · by_cases otherNone : other.children = []
    · rw [none] at count
      rw [otherNone] at otherCount
      have empty := eq_nil_of_length_eq_zero count.symm
      have otherEmpty := eq_nil_of_length_eq_zero otherCount.symm
      subst empty otherEmpty
      simp only [none,otherNone,isEmpty_nil,if_true] at same
      exact ⟨rfl,fun _ => same⟩
    · simp only [none,otherNone,isEmpty_nil,List.isEmpty_iff,if_true,if_false] at same
      have children := congrArg Json.children same
      rw [Json.children_withChildren (Json.isObject_of_children otherNone),none] at children
      rw [← length_map Json.string,← children] at otherCount
      exact absurd (eq_nil_of_length_eq_zero otherCount) otherNone
  · by_cases otherNone : other.children = []
    · simp only [none,otherNone,isEmpty_nil,List.isEmpty_iff,if_true,if_false] at same
      have children := congrArg Json.children same
      rw [Json.children_withChildren (Json.isObject_of_children none),otherNone] at children
      rw [← length_map Json.string,children] at count
      exact absurd (eq_nil_of_length_eq_zero count) none
    · simp only [none,otherNone,List.isEmpty_iff,if_false] at same
      have children := congrArg Json.children same
      rw [Json.children_withChildren (Json.isObject_of_children none),Json.children_withChildren
        (Json.isObject_of_children otherNone)] at children
      refine ⟨map_string_injective children,fun alike => ?_⟩
      rw [← Json.withChildren_back none (ids.map .string),same,alike]
      exact Json.withChildren_back otherNone _

section
variable {h : Hashing Text}

theorem Known.same_upto (bound : Nat) : ∀ one other id, sizeOf one ≤ bound → Known h canonical one id →
    Known h canonical other id → one = other := by
  induction bound with
  | zero =>
    intro one other id small
    have := one.sizeOf_pos
    omega
  | succ bound ih =>
    intro one other id small known otherKnown
    cases known with
    | object _ children held =>
      cases otherKnown with
      | object _ otherChildren otherHeld =>
        rw [held] at otherHeld
        have shells := h.dumps_injective _ _ (congrArg Prod.snd (Option.some.inj otherHeld))
        obtain ⟨ids,rebuilt⟩ := shell_inj children.length_eq otherChildren.length_eq shells
        subst ids
        refine rebuilt (forall₂_same children otherChildren ?_)
        intro item member otherItem _ name first second
        have smaller := Json.child_smaller member
        exact ih item otherItem name (by omega) first second

theorem Known.same {id : String} (known : Known h canonical one id) (otherKnown : Known h canonical other id) :
    one = other :=
  Known.same_upto (sizeOf one) one other id (Nat.le_refl _) known otherKnown

def Extends (canonical more : List (String × (Text × Text))) : Prop :=
  ∀ id forms, lookup id canonical = some forms → lookup id more = some forms

theorem Extends.refl (canonical : List (String × (Text × Text))) : Extends canonical canonical := fun _ _ held => held

theorem Extends.trans (first : Extends canonical more) (second : Extends more most) :
    Extends canonical most := fun id forms held => second id forms (first id forms held)

theorem Known.mono_upto (extends_ : Extends canonical more) (bound : Nat) :
    ∀ node id, sizeOf node ≤ bound → Known h canonical node id → Known h more node id := by
  induction bound with
  | zero =>
    intro node id small
    have := node.sizeOf_pos
    omega
  | succ bound ih =>
    intro node id small known
    cases known with
    | object isObject children held =>
      refine .object isObject (forall₂_imp_mem children ?_) (extends_ _ _ held)
      intro child member name first
      have smaller := Json.child_smaller member
      exact ih child name (by omega) first

theorem Known.mono {id : String} (known : Known h canonical node id)
    (extends_ : Extends canonical more) : Known h more node id :=
  Known.mono_upto extends_ (sizeOf node) node id (Nat.le_refl _) known

theorem setDefault_extends (id : String) (forms : Text × Text) (canonical : List (String × (Text × Text))) :
    Extends canonical (Dict.setDefault id forms canonical) := by
  intro other held found
  rw [Dict.lookup_setDefault,found]
  rfl

theorem setDefault_valid {id : String}
    (valid : Valid h roots canonical) (entry : Entry h roots id forms content) : Valid h roots
    (Dict.setDefault id forms canonical) := by
  intro other held found
  rw [Dict.lookup_setDefault] at found
  cases present : lookup other canonical with
  | some before =>
    rw [present] at found
    cases found
    exact valid other held present
  | none =>
    rw [present,Option.none_or] at found
    split at found
    · rename_i same
      cases found
      rw [same]
      exact ⟨content,entry⟩
    · cases found

theorem Valid.canonical_form (apart : NoSharedDigest h roots) (valid : Valid h roots canonical)
    (hashed : Content h roots content)
    (held : lookup (h.digest (.canonical (h.sortedDumps content))) canonical = some forms) :
    forms.1 = h.sortedDumps content := by
  obtain ⟨other,entry⟩ := valid _ _ held
  have dumped := entry.dumped
  subst dumped
  rcases entry.named with named | named
  · exact (Preimage.canonical.inj (apart _ _ (.canonical hashed) (.canonical entry.hashed) named)).symm
  · cases apart _ _ (.canonical hashed) (.exact entry.hashed) named

theorem Valid.exact_form (apart : NoSharedDigest h roots) (valid : Valid h roots canonical)
    (hashed : Content h roots content)
    (held : lookup (h.digest (.exact (h.dumps content))) canonical = some forms) :
    forms = (h.sortedDumps content,h.dumps content) := by
  obtain ⟨other,entry⟩ := valid _ _ held
  have dumped := entry.dumped
  subst dumped
  rcases entry.named with named | named
  · cases apart _ _ (.exact hashed) (.canonical entry.hashed) named
  · have texts := Preimage.exact.inj (apart _ _ (.exact hashed) (.exact entry.hashed) named)
    rw [h.dumps_injective _ _ texts]

theorem lookup_setDefault_self (id : String) (forms : Text × Text) (canonical : List (String × (Text × Text))) :
    lookup id (Dict.setDefault id forms canonical) = some ((lookup id canonical).getD forms) := by
  rw [Dict.lookup_setDefault,if_pos rfl]
  cases lookup id canonical <;> rfl

theorem identifyShell_ok [DecidableEq Text] (apart : NoSharedDigest h roots) {interner : Interner Text}
    (valid : Valid h roots interner.canonical)
    {content : Json} (hashed : Content h roots content) :
    ∃ id canonical, identifyShell h content interner = .ok (id,{interner with canonical}) ∧ Valid h roots canonical ∧
      Extends interner.canonical canonical ∧ lookup id canonical = some (h.sortedDumps content,h.dumps content) ∧
      (id = h.digest (.canonical (h.sortedDumps content)) ∨ id = h.digest (.exact (h.dumps content))) := by
  have entry : Entry h roots (h.digest (.canonical (h.sortedDumps content)))
    (h.sortedDumps content,h.dumps content) content :=
    ⟨hashed,rfl,.inl rfl⟩
  have exactEntry : Entry h roots (h.digest (.exact (h.dumps content)))
    (h.sortedDumps content,h.dumps content) content :=
    ⟨hashed,rfl,.inr rfl⟩
  have firstValid := setDefault_valid valid entry
  have firstExtends := setDefault_extends (h.digest (.canonical (h.sortedDumps content)))
    (h.sortedDumps content,h.dumps content) interner.canonical
  have first := lookup_setDefault_self (h.digest (.canonical (h.sortedDumps content)))
    (h.sortedDumps content,h.dumps content) interner.canonical
  unfold identifyShell Interner.known
  dsimp only
  generalize kept : (lookup (h.digest (.canonical (h.sortedDumps content))) interner.canonical).getD
    (h.sortedDumps content,h.dumps content)
    = known at first
  have sorted := firstValid.canonical_form apart hashed first
  rw [if_neg (not_not.mpr sorted)]
  by_cases exact_ : known.2 = h.dumps content
  · rw [if_neg (not_not.mpr exact_)]
    have whole : known = (h.sortedDumps content,h.dumps content) := Prod.ext sorted exact_
    rw [whole] at first
    exact ⟨_,_,rfl,firstValid,firstExtends,first,.inl rfl⟩
  · rw [if_pos exact_]
    have second := lookup_setDefault_self (h.digest (.exact (h.dumps content))) (h.sortedDumps content,h.dumps content)
      (Dict.setDefault (h.digest (.canonical (h.sortedDumps content)))
        (h.sortedDumps content,h.dumps content) interner.canonical)
    have secondValid := setDefault_valid firstValid exactEntry
    have form := secondValid.exact_form apart hashed second
    rw [form] at second
    rw [if_neg (not_not.mpr (congrArg Prod.snd form))]
    exact ⟨_,_,rfl,secondValid,firstExtends.trans (setDefault_extends _ _ _),second,.inr rfl⟩

variable [DecidableEq Text]

def Identifies (h : Hashing Text) (roots : List Json) (node : Json) : Prop :=
  ∀ interner : Interner Text, Valid h roots interner.canonical →
    ∃ identified canonical, identify h node interner = .ok (identified,{interner with canonical}) ∧
      Valid h roots canonical ∧
      Extends interner.canonical canonical ∧ Known h canonical node identified.id ∧ MayName h node identified.id

theorem identifyAll_ok (each : ∀ node ∈ nodes, Identifies h roots node) (interner : Interner Text)
    (valid : Valid h roots interner.canonical) :
    ∃ identified canonical, identifyAll h nodes interner = .ok (identified,{interner with canonical}) ∧
    Valid h roots canonical ∧
      Extends interner.canonical canonical ∧ Forall₂ (Known h canonical) nodes (identified.map Identified.id) ∧
      Forall₂ (MayName h) nodes (identified.map Identified.id) := by
  induction nodes generalizing interner with
  | nil => exact ⟨[],interner.canonical,by rw [identifyAll],valid,.refl _,.nil,.nil⟩
  | cons node rest ih =>
    obtain ⟨first,canonical,found,firstValid,firstExtends,known,named⟩ := each node mem_cons_self interner valid
    obtain ⟨others,final,remaining,finalValid,finalExtends,knownRest,namedRest⟩ :=
      ih (fun other member => each other (mem_cons_of_mem node member)) {interner with canonical} firstValid
    refine ⟨first :: others,final,?_,finalValid,firstExtends.trans finalExtends,?_,?_⟩
    · rw [identifyAll,found]
      dsimp only
      rw [remaining]
    · exact .cons (known.mono finalExtends) knownRest
    · exact .cons named namedRest

theorem identify_ok (trees : Trees roots) (apart : NoSharedDigest h roots) (bound : Nat) :
    ∀ node, sizeOf node ≤ bound → Node roots node → node.isObject = true → Identifies h roots node := by
  induction bound with
  | zero =>
    intro node small
    have := node.sizeOf_pos
    omega
  | succ bound ih =>
    intro node small inside object interner valid
    rw [identify]
    have each : ∀ child ∈ node.children, Identifies h roots child := by
      intro child member
      have smaller := Json.child_smaller member
      exact ih child (by omega) (.child inside member) (trees node inside child member)
    obtain ⟨children,canonical,found,childrenValid,childrenExtends,known,named⟩ := identifyAll_ok each interner valid
    have hashed := Content.shell inside object named
    obtain ⟨id,final,shelled,finalValid,finalExtends,held,digests⟩ :=
      @identifyShell_ok Text h roots _ apart {interner with canonical}
      childrenValid _ hashed
    refine ⟨{id,size:=nodeSize h (shell node (children.map Identified.id)) children},final,?_,finalValid,
      childrenExtends.trans finalExtends,.object object ?_ held,?_⟩
    · rw [if_pos object,found]
      dsimp only
      rw [shelled]
    · exact forall₂_imp_mem known fun _ _ _ first => first.mono finalExtends
    · rcases digests with canonical_ | exact_
      · rw [show ({id,size:=nodeSize h (shell node (children.map Identified.id)) children} : Identified).id =
          id from rfl,canonical_]
        exact .canonical object named
      · rw [show ({id,size:=nodeSize h (shell node (children.map Identified.id)) children} : Identified).id =
          id from rfl,exact_]
        exact .exact object named

theorem identifies (trees : Trees roots) (apart : NoSharedDigest h roots) (inside : Node roots node)
    (object : node.isObject = true) : Identifies h roots node :=
  identify_ok trees apart (sizeOf node) node (Nat.le_refl _) inside object

def Counts (h : Hashing Text) (roots : List Json) (node : Json) : Prop :=
  ∀ interner : Interner Text, Valid h roots interner.canonical →
    ∃ uses canonical, count h node interner = .ok {interner with uses,canonical} ∧ Valid h roots canonical

theorem countAll_ok (each : ∀ node ∈ nodes, Counts h roots node) (interner : Interner Text)
    (valid : Valid h roots interner.canonical) :
    ∃ uses canonical, countAll h nodes interner = .ok {interner with uses,canonical} ∧ Valid h roots canonical := by
  induction nodes generalizing interner with
  | nil => exact ⟨interner.uses,interner.canonical,by rw [countAll],valid⟩
  | cons node rest ih =>
    obtain ⟨uses,canonical,counted,firstValid⟩ := each node mem_cons_self interner valid
    obtain ⟨finalUses,final,remaining,finalValid⟩ :=
      ih (fun other member => each other (mem_cons_of_mem node member)) {interner with uses,canonical} firstValid
    exact ⟨finalUses,final,by rw [countAll,counted]; exact remaining,finalValid⟩

theorem count_ok (trees : Trees roots) (apart : NoSharedDigest h roots) (bound : Nat) : ∀ node, sizeOf node ≤ bound →
    Node roots node → Counts h roots node := by
  induction bound with
  | zero =>
    intro node small
    have := node.sizeOf_pos
    omega
  | succ bound ih =>
    intro node small inside interner valid
    rw [count]
    cases object : node.isObject with
    | false => exact ⟨interner.uses,interner.canonical,rfl,valid⟩
    | true =>
      obtain ⟨identified,canonical,found,identifiedValid,_⟩ := identifies trees apart inside object interner valid
      rw [if_pos rfl,found]
      dsimp only
      split
      · refine countAll_ok (fun child member => ?_) _ identifiedValid
        have smaller := Json.child_smaller member
        exact ih child (by omega) (.child inside member)
      · exact ⟨_,canonical,rfl,identifiedValid⟩

end

end Psat.Codec
