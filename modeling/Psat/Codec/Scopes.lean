import Psat.General.Dict

namespace Psat.Codec
open Psat.General Dict
open List (lookup)

-- A JSON value; a number is kept by its text, an object by its fields in order.
inductive Json
  | null
  | bool (value : Bool)
  | number (text : String)
  | string (text : String)
  | array (items : List Json)
  | object (fields : List (String × Json))

namespace Json

def isObject : Json → Bool
  | .object _ => true
  | _ => false

def items : Json → Option (List Json)
  | .array items => some items
  | _ => none

def reference (id : String) : Json := .object [("ref",.string id)]

-- `_is_ref`: the id that a single-key reference names.
def ref : Json → Option String
  | .object [("ref",.string id)] => some id
  | _ => none

def children : Json → List Json
  | .object fields => ((lookup "children" fields).bind items).getD []
  | _ => []

-- `{**node, "children": children}`
def withChildren (children : List Json) : Json → Json
  | .object fields => .object (put "children" (.array children) fields)
  | node => node

theorem sizeOf_lookup (fields : List (String × Json)) (found : lookup key fields = some value) :
    sizeOf value < sizeOf fields := by
  have member := List.sizeOf_lt_of_mem (mem_of_lookup found)
  rw [Prod.mk.sizeOf_spec] at member
  omega

theorem children_cases (node : Json) :
    node.children = [] ∨ ∃ fields, node = .object fields ∧ lookup "children" fields = some (.array node.children) := by
  cases node with
  | object fields =>
    cases found : lookup "children" fields with
    | none => exact .inl (by rw [children,found]; rfl)
    | some value =>
      cases value with
      | array items => exact .inr ⟨fields,rfl,by rw [children,found]; rfl⟩
      | _ => exact .inl (by rw [children,found]; rfl)
  | _ => exact .inl rfl

theorem sizeOf_pos (node : Json) : 1 ≤ sizeOf node := by
  cases node <;> simp

theorem sizeOf_children (node : Json) : sizeOf node.children ≤ sizeOf node := by
  rcases node.children_cases with none | ⟨fields,same,found⟩
  · rw [none]
    exact node.sizeOf_pos
  · have small := sizeOf_lookup fields found
    rw [array.sizeOf_spec] at small
    have whole : sizeOf node = 1 + sizeOf fields := by rw [same,object.sizeOf_spec]
    omega

theorem child_smaller {node child : Json} (member : child ∈ node.children) : sizeOf child < sizeOf node :=
  Nat.lt_of_lt_of_le (List.sizeOf_lt_of_mem member) node.sizeOf_children

theorem isObject_of_children {node : Json} (some : node.children ≠ []) : node.isObject = true := by
  rcases node.children_cases with none | ⟨fields,same,_⟩
  · exact absurd none some
  · rw [same]
    rfl

theorem children_withChildren {node : Json} (object : node.isObject = true) (items : List Json) :
    (node.withChildren items).children = items := by
  cases node with
  | object fields =>
    simp only [withChildren,children,lookup_put,if_true]
    rfl
  | _ => cases object

theorem withChildren_back {node : Json} (some : node.children ≠ []) (items : List Json) :
    (node.withChildren items).withChildren node.children = node := by
  rcases node.children_cases with none | ⟨fields,same,found⟩
  · exact absurd none some
  · generalize node.children = own at found
    subst same
    exact congrArg Json.object (put_back found)

theorem ref_some {id : String} (names : node.ref = some id) : node = reference id := by
  unfold ref at names
  split at names
  · cases names
    rfl
  · cases names

theorem withChildren_ref {node : Json} (some : node.children ≠ []) (items : List Json) :
    (node.withChildren items).ref = none := by
  cases unread : (node.withChildren items).ref with
  | none => rfl
  | some id =>
    have alone := ref_some unread
    rcases node.children_cases with none | ⟨fields,same,_⟩
    · exact absurd none some
    · rw [same] at alone
      have fieldsSame := congrArg (lookup "children") (Json.object.inj alone)
      rw [lookup_put,if_pos rfl] at fieldsSame
      cases fieldsSame

theorem children_before (node : Json) : Prod.Lex (· < ·) (· < ·) (sizeOf node.children,0) (sizeOf node,1) := by
  rcases Nat.lt_or_eq_of_le node.sizeOf_children with less | same
  · exact Prod.Lex.left _ _ less
  · rw [same]
    exact Prod.Lex.right _ Nat.zero_lt_one

end Json

-- What is hashed: the sorted-key form, or `exact:` and the exact form.
inductive Preimage (Text : Type)
  | canonical (text : Text)
  | exact (text : Text)

-- `json.dumps` with and without sorted keys, and the truncated hash.
structure Hashing (Text : Type) where
  dumps : Json → Text
  sortedDumps : Json → Text
  length : Text → Nat
  digest : Preimage Text → String
  dumps_injective : ∀ a b, dumps a = dumps b → a = b

def minInternedBytes : Int := 96

structure Interner (Text : Type) where
  canonical : List (String × (Text × Text)) := []
  uses : List (String × Nat) := []
  table : List (String × Json) := []

structure Identified where
  id : String
  size : Int

def shell (node : Json) (ids : List String) : Json :=
  if node.children.isEmpty then node else node.withChildren (ids.map .string)

section
variable [DecidableEq Text] (h : Hashing Text)

def collision (id : String) : String := "effect guard id collision on " ++ id

-- `self._canonical.setdefault(id, forms)` and what it holds then.
def Interner.known (interner : Interner Text) (id : String) (forms : Text × Text) : (Text × Text) × Interner Text :=
  ((lookup id interner.canonical).getD forms,{interner with canonical:=setDefault id forms interner.canonical})

def identifyShell (shell : Json) (interner : Interner Text) : Except String (String × Interner Text) :=
  let forms := (h.sortedDumps shell,h.dumps shell)
  let id := h.digest (.canonical forms.1)
  let (known,interner) := interner.known id forms
  if known.1 ≠ forms.1 then .error (collision id)
  else if known.2 ≠ forms.2 then
    -- Equal content in another key order.
    let id := h.digest (.exact forms.2)
    let (known,interner) := interner.known id forms
    if known.2 ≠ forms.2 then .error (collision id) else .ok (id,interner)
  else .ok (id,interner)

def nodeSize (shell : Json) (children : List Identified) : Int :=
  children.foldl (fun size child => size - ((child.id.length : Int) + 2) + child.size)
    (h.length (h.sortedDumps shell) : Int)

mutual

def identify (node : Json) (interner : Interner Text) : Except String (Identified × Interner Text) :=
  if node.isObject then
    match identifyAll node.children interner with
    | .error message => .error message
    | .ok (children,interner) =>
      let shell := shell node (children.map Identified.id)
      match identifyShell h shell interner with
      | .error message => .error message
      | .ok (id,interner) => .ok ({id,size:=nodeSize h shell children},interner)
  else .ok ({id:=h.digest (.canonical (h.sortedDumps node)),size:=h.length (h.sortedDumps node)},interner)
termination_by (sizeOf node,1)
decreasing_by exact Json.children_before node

def identifyAll (nodes : List Json) (interner : Interner Text) : Except String (List Identified × Interner Text) :=
  match nodes with
  | [] => .ok ([],interner)
  | node :: rest =>
    match identify node interner with
    | .error message => .error message
    | .ok (first,interner) =>
      match identifyAll rest interner with
      | .error message => .error message
      | .ok (others,interner) => .ok (first :: others,interner)
termination_by (sizeOf nodes,0)

end

def Interner.usesOf (interner : Interner Text) (id : String) : Nat := (lookup id interner.uses).getD 0

mutual

-- The children of a node are counted where it is met first.
def count (node : Json) (interner : Interner Text) : Except String (Interner Text) :=
  if node.isObject then
    match identify h node interner with
    | .error message => .error message
    | .ok (identified,interner) =>
      let counted := {interner with uses:=put identified.id (interner.usesOf identified.id + 1) interner.uses}
      if counted.usesOf identified.id = 1 then countAll node.children counted else .ok counted
  else .ok interner
termination_by (sizeOf node,1)
decreasing_by exact Json.children_before node

def countAll (nodes : List Json) (interner : Interner Text) : Except String (Interner Text) :=
  match nodes with
  | [] => .ok interner
  | node :: rest =>
    match count node interner with
    | .error message => .error message
    | .ok interner => countAll rest interner
termination_by (sizeOf nodes,0)

end

def rebuild (node : Json) (children : List Json) : Json :=
  if node.children.isEmpty then node else node.withChildren children

def Interner.inline (interner : Interner Text) (identified : Identified) : Bool :=
  decide (interner.usesOf identified.id < 2) || decide (identified.size < minInternedBytes)

mutual

def emit (node : Json) (interner : Interner Text) : Except String (Json × Interner Text) :=
  if node.isObject then
    match identify h node interner with
    | .error message => .error message
    | .ok (identified,interner) =>
      let inline := interner.inline identified
      if !inline && decide (identified.id ∈ interner.table.map Prod.fst) then .ok (.reference identified.id,interner)
      else
        match emitAll node.children interner with
        | .error message => .error message
        | .ok (children,after) =>
          if inline then .ok (rebuild node children,after)
          else .ok (.reference identified.id,{after with table:=put identified.id (rebuild node children) after.table})
  else .ok (node,interner)
termination_by (sizeOf node,1)
decreasing_by exact Json.children_before node

def emitAll (nodes : List Json) (interner : Interner Text) : Except String (List Json × Interner Text) :=
  match nodes with
  | [] => .ok ([],interner)
  | node :: rest =>
    match emit node interner with
    | .error message => .error message
    | .ok (first,interner) =>
      match emitAll rest interner with
      | .error message => .error message
      | .ok (others,interner) => .ok (first :: others,interner)
termination_by (sizeOf nodes,0)

end

abbrev Site := List (String × Json)

abbrev EffectScopes := List (String × List Site)

-- The stored artifact; an old one has no guard table.
structure PredicateTrees where
  effectScopes : EffectScopes
  effectGuards : Option (List (String × Json))

def predicates (scopes : EffectScopes) : List Json :=
  scopes.flatMap fun entry => entry.2.map fun site => (lookup "predicate" site).getD .null

def emitSite (site : Site) (interner : Interner Text) : Except String (Site × Interner Text) :=
  match lookup "predicate" site with
  | none => .ok (site,interner)
  | some predicate =>
    match emit h predicate interner with
    | .error message => .error message
    | .ok (emitted,interner) => .ok (put "predicate" emitted site,interner)

def emitSites : List Site → Interner Text → Except String (List Site × Interner Text)
  | [],interner => .ok ([],interner)
  | site :: rest,interner =>
    match emitSite h site interner with
    | .error message => .error message
    | .ok (first,interner) =>
      match emitSites rest interner with
      | .error message => .error message
      | .ok (others,interner) => .ok (first :: others,interner)

def emitScopes : EffectScopes → Interner Text → Except String (EffectScopes × Interner Text)
  | [],interner => .ok ([],interner)
  | (signature,sites) :: rest,interner =>
    match emitSites h sites interner with
    | .error message => .error message
    | .ok (first,interner) =>
      match emitScopes rest interner with
      | .error message => .error message
      | .ok (others,interner) => .ok ((signature,first) :: others,interner)

def encodeEffectScopes (scopes : EffectScopes) : Except String PredicateTrees :=
  match countAll h (predicates scopes) {} with
  | .error message => .error message
  | .ok counted =>
    match emitScopes h scopes counted with
    | .error message => .error message
    | .ok (stored,interner) => .ok {effectScopes:=stored,effectGuards:=some interner.table}

end

def unsupportedLeaf (reason expression : String) : List (String × Json) :=
  [("kind",.string "unsupported"),("operator",.string "truthy"),("authority_role",.string "business"),
    ("operands",.array []),
      ("unsupported_reason",.string reason),("references_msg_sender",.bool false),("parameter_indices",.array []),
      ("expression",.string expression),("basis",.array [.string reason])]

def unavailableGuard : Json :=
  .object
    [("op",.string "LEAF"),("leaf",.object (unsupportedLeaf "effect_guard_unavailable" "effect_guard_unavailable" ++
    [("authority_proof",
      .object [("state",.string "not_determined"),("requirements",.array [.string "effect_guard_unavailable"])])]))]

abbrev Guards := List (String × Json)

mutual

def expandWith (follow : String → Guards → Json × Guards) (node : Json) (memo : Guards) : Json × Guards :=
  match node.ref with
  | some id => follow id memo
  | none =>
    let (expanded,memo) := expandAll follow node.children memo
    (rebuild node expanded,memo)
termination_by (sizeOf node,1)
decreasing_by exact Json.children_before node

def expandAll (follow : String → Guards → Json × Guards) (nodes : List Json) (memo : Guards) : List Json × Guards :=
  match nodes with
  | [] => ([],memo)
  | node :: rest =>
    let (first,memo) := expandWith follow node memo
    let (others,memo) := expandAll follow rest memo
    (first :: others,memo)
termination_by (sizeOf nodes,0)

end

def follow (table : Guards) (expand : List String → Json → Guards → Json × Guards) (active : List String)
    (id : String) (memo : Guards) :
    Json × Guards :=
  match lookup id memo with
  | some found => (found,memo)
  | none =>
    match lookup id table with
    | none => (unavailableGuard,memo)
    | some stored =>
      if id ∈ active then (unavailableGuard,memo)
      else
        let (found,memo) := expand (id :: active) stored memo
        (found,put id found memo)

-- `rounds` bounds nested references; `active` ends the walk before they run out.
def expand (table : Guards) : Nat → List String → Json → Guards → Json × Guards
  | 0,_,_,memo => (unavailableGuard,memo)
  | rounds + 1,active,node,memo => expandWith (follow table (expand table rounds) active) node memo

def expandSitePredicate (trees : PredicateTrees) (site : Site) (memo : Guards) : Json × Guards :=
  let predicate := (lookup "predicate" site).getD .null
  match trees.effectGuards with
  | none => (predicate,memo)
  | some table => expand table (table.length + 1) [] predicate memo

def expandSite (trees : PredicateTrees) (site : Site) (memo : Guards) : Site × Guards :=
  if "predicate" ∈ site.map Prod.fst then
    let (predicate,memo) := expandSitePredicate trees site memo
    (put "predicate" predicate site,memo)
  else (site,memo)

def expandSites (trees : PredicateTrees) : List Site → Guards → List Site × Guards
  | [],memo => ([],memo)
  | site :: rest,memo =>
    let (first,memo) := expandSite trees site memo
    let (others,memo) := expandSites trees rest memo
    (first :: others,memo)

def expandScopes (trees : PredicateTrees) : EffectScopes → Guards → EffectScopes
  | [],_ => []
  | (signature,sites) :: rest,memo =>
    let (first,memo) := expandSites trees sites memo
    (signature,first) :: expandScopes trees rest memo

def expandEffectScopes (trees : PredicateTrees) : EffectScopes := expandScopes trees trees.effectScopes []

end Psat.Codec
