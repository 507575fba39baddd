import Psat.General.Dict
import Psat.Predicates.Cycles

namespace Psat.Predicates
open Psat.General List

inductive Unstated
  | gateOnRevertingPath
  | gateReachConditionBudget
  | loopIterationNotDetermined
  | branchConditionNotDetermined
  | gateLocationNotDetermined
deriving DecidableEq

-- `always` and `never` are the constants, `branch` one outcome of one branch.
inductive Leaf (α : Type)
  | always
  | never
  | branch (node : α) (holds : Bool)
  | unsupported (reason : Unstated)
deriving DecidableEq

inductive Formula (α : Type)
  | leaf (leaf : Leaf α)
  | and (parts : List (Formula α))
  | or (parts : List (Formula α))

def Leaf.eval (taken : α → Bool → Bool) (unstated : Bool) : Leaf α → Bool
  | .always => true
  | .never => false
  | .branch node holds => taken node holds
  | .unsupported _ => unstated

namespace Formula

abbrev always : Formula α := .leaf .always

abbrev never : Formula α := .leaf .never

abbrev branch (node : α) (holds : Bool) : Formula α := .leaf (.branch node holds)

abbrev unsupported (reason : Unstated) : Formula α := .leaf (.unsupported reason)

section Equality
variable [DecidableEq α]

mutual

def same : Formula α → Formula α → Bool
  | .leaf atom,.leaf atom' => atom = atom'
  | .and parts,.and parts' => sameAll parts parts'
  | .or parts,.or parts' => sameAll parts parts'
  | _,_ => false

def sameAll : List (Formula α) → List (Formula α) → Bool
  | [],[] => true
  | part :: rest,part' :: rest' => same part part' && sameAll rest rest'
  | _,_ => false

end

mutual

theorem same_iff : ∀ a b : Formula α, same a b = true ↔ a = b
  | .leaf _,b => by cases b <;> simp [same]
  | .and parts,b => by cases b <;> simp [same,sameAll_iff parts]
  | .or parts,b => by cases b <;> simp [same,sameAll_iff parts]

theorem sameAll_iff : ∀ p q : List (Formula α), sameAll p q = true ↔ p = q
  | [],q => by cases q <;> simp [sameAll]
  | part :: rest,q => by cases q <;> simp [sameAll,same_iff part,sameAll_iff rest]

end

instance : DecidableEq (Formula α) := fun a b => decidable_of_iff _ (same_iff a b)

end Equality

mutual

def leaves : Formula α → List (Leaf α)
  | .leaf atom => [atom]
  | .and parts => leavesAll parts
  | .or parts => leavesAll parts

def leavesAll : List (Formula α) → List (Leaf α)
  | [] => []
  | part :: rest => leaves part ++ leavesAll rest

end

def supported (formula : Formula α) : Bool := formula.leaves.all fun atom => atom matches .always | .never | .branch _ _

mutual

-- The value under the outcomes taken, an unsupported leaf being read as given.
def eval (taken : α → Bool → Bool) (unstated : Bool) : Formula α → Bool
  | .leaf atom => atom.eval taken unstated
  | .and parts => evalAll taken unstated parts
  | .or parts => evalAny taken unstated parts

def evalAll (taken : α → Bool → Bool) (unstated : Bool) : List (Formula α) → Bool
  | [] => true
  | part :: rest => eval taken unstated part && evalAll taken unstated rest

def evalAny (taken : α → Bool → Bool) (unstated : Bool) : List (Formula α) → Bool
  | [] => false
  | part :: rest => eval taken unstated part || evalAny taken unstated rest

end

def isBranch : Formula α → Bool
  | .leaf (.branch _ _) => true
  | _ => false

def negateOutcome : Formula α → Formula α
  | .leaf (.branch node holds) => branch node (!holds)
  | outcome => outcome

def orParts : Formula α → List (Formula α)
  | .or parts => parts
  | part => [part]

def andParts : Formula α → List (Formula α)
  | .and parts => parts
  | part => [part]

section Simplify
variable [DecidableEq α]

def keptOr (items : List (Formula α)) : List (Formula α) := (Ordered.unique (items.flatMap orParts)).filter (· ≠ never)

def keptAnd (items : List (Formula α)) : List (Formula α) :=
  (Ordered.unique (items.flatMap andParts)).filter (· ≠ always)

def orOf (items : List (Formula α)) : Formula α :=
  if always ∈ items then always
  else
    match keptOr items with
    | [] => never
    | [part] => part
    | parts => .or parts

def contradictory (parts : List (Formula α)) : Bool :=
  parts.any fun part => part.isBranch && decide (part.negateOutcome ∈ parts)

-- A branch node runs at most once outside a loop, so its outcomes exclude each
-- other.
def andOf (items : List (Formula α)) : Formula α :=
  if never ∈ items then never
  else if contradictory (keptAnd items) then never
  else
    match keptAnd items with
    | [] => always
    | [part] => part
    | parts => .and parts

end Simplify

def reachLeafBudget : Nat := 32

def withinBudget (formula : Formula α) : Formula α :=
  if reachLeafBudget < formula.leaves.length then .unsupported .gateReachConditionBudget else formula

theorem leavesAll_eq (parts : List (Formula α)) : leavesAll parts = parts.flatMap leaves := by
  induction parts with
  | nil => rfl
  | cons part rest ih => rw [leavesAll,ih,flatMap_cons]

theorem evalAll_eq (taken : α → Bool → Bool) : evalAll taken unstated parts = parts.all (eval taken unstated) := by
  induction parts with
  | nil => rfl
  | cons part rest ih => rw [evalAll,ih,all_cons]

theorem evalAny_eq (taken : α → Bool → Bool) : evalAny taken unstated parts = parts.any (eval taken unstated) := by
  induction parts with
  | nil => rfl
  | cons part rest ih => rw [evalAny,ih,any_cons]

section Values

mutual

theorem eval_congr : ∀ formula :
    Formula α, (∀ atom ∈ formula.leaves, atom.eval taken unstated = atom.eval taken' unstated') →
    eval taken unstated formula = eval taken' unstated' formula
  | .leaf _,agree => agree _ (by simp [leaves])
  | .and parts,agree => evalAll_congr parts agree
  | .or parts,agree => evalAny_congr parts agree

theorem evalAll_congr : ∀ parts : List (Formula α),
    (∀ atom ∈ leavesAll parts, atom.eval taken unstated = atom.eval taken' unstated') →
    evalAll taken unstated parts = evalAll taken' unstated' parts
  | [],_ => rfl
  | part :: rest,agree => by
    rw [evalAll,evalAll,eval_congr part fun atom member => agree atom (by simp [leavesAll,member]),
      evalAll_congr rest fun atom member => agree atom (by simp [leavesAll,member])]

theorem evalAny_congr : ∀ parts : List (Formula α),
    (∀ atom ∈ leavesAll parts, atom.eval taken unstated = atom.eval taken' unstated') →
    evalAny taken unstated parts = evalAny taken' unstated' parts
  | [],_ => rfl
  | part :: rest,agree => by
    rw [evalAny,evalAny,eval_congr part fun atom member => agree atom (by simp [leavesAll,member]),
      evalAny_congr rest fun atom member => agree atom (by simp [leavesAll,member])]

end

theorem eval_supported (supported : formula.supported = true) (unstated unstated' : Bool) :
    eval taken unstated formula = eval taken unstated' formula := by
  apply eval_congr
  intro atom member
  have stated := all_eq_true.mp supported atom member
  cases atom with
  | unsupported => cases stated
  | _ => rfl

theorem eval_orParts : eval taken unstated formula = (orParts formula).any (eval taken unstated) := by
  cases formula with
  | or parts => rw [eval,evalAny_eq,orParts]
  | _ => simp [orParts]

theorem eval_andParts (formula : Formula α) : eval taken unstated formula = (andParts formula).all
    (eval taken unstated) := by
  cases formula with
  | and parts => rw [eval,evalAll_eq,andParts]
  | _ => simp [andParts]

variable [DecidableEq α]

variable {items : List (Formula α)}

theorem mem_keptOr : part ∈ keptOr items ↔ (∃ item ∈ items, part ∈ orParts item) ∧ part ≠ never := by
  simp [keptOr,mem_filter,Ordered.mem_unique]

theorem mem_keptAnd : part ∈ keptAnd items ↔ (∃ item ∈ items, part ∈ andParts item) ∧ part ≠ always := by
  simp [keptAnd,mem_filter,Ordered.mem_unique]

theorem eval_orOf (items : List (Formula α)) : eval taken unstated (orOf items) = items.any (eval taken unstated) := by
  unfold orOf
  split
  · rename_i inside
    exact (any_eq_true.mpr ⟨always,inside,rfl⟩).symm
  · have collapse : ∀ parts : List (Formula α), eval taken unstated
      (match parts with | [] => never | [part] => part | parts => .or parts) = parts.any (eval taken unstated) := by
      intro parts
      rcases parts with _ | ⟨part,_ | ⟨next,rest⟩⟩
      · rfl
      · simp
      · rw [eval,evalAny_eq]
    rw [collapse,Bool.eq_iff_iff,any_eq_true,any_eq_true]
    constructor
    · rintro ⟨part,member,holds⟩
      obtain ⟨⟨item,inside,own⟩,_⟩ := mem_keptOr.mp member
      exact ⟨item,inside,by rw [eval_orParts]; exact any_eq_true.mpr ⟨part,own,holds⟩⟩
    · rintro ⟨item,inside,holds⟩
      rw [eval_orParts,any_eq_true] at holds
      obtain ⟨part,own,holds⟩ := holds
      refine ⟨part,mem_keptOr.mpr ⟨⟨item,inside,own⟩,?_⟩,holds⟩
      rintro rfl
      cases holds

theorem eval_andOf (exclusive : ∀ item ∈ items, ∀ node holds, branch node holds ∈ andParts item →
    taken node holds = true → taken node (!holds) = false) : eval taken unstated (andOf items) = items.all
    (eval taken unstated) := by
  have parts_all : (keptAnd items).all (eval taken unstated) =
    items.all (eval taken unstated) := by
    rw [Bool.eq_iff_iff,all_eq_true,all_eq_true]
    constructor
    · intro all item inside
      rw [eval_andParts,all_eq_true]
      intro part own
      by_cases trivial_ : part = always
      · rw [trivial_]
        rfl
      · exact all part (mem_keptAnd.mpr ⟨⟨item,inside,own⟩,trivial_⟩)
    · intro all part member
      obtain ⟨⟨item,inside,own⟩,_⟩ := mem_keptAnd.mp member
      have holds := all item inside
      rw [eval_andParts,all_eq_true] at holds
      exact holds part own
  unfold andOf
  split
  · rename_i inside
    symm
    change items.all (eval taken unstated) = false
    rw [← Bool.not_eq_true,all_eq_true]
    intro all
    cases all never inside
  · rw [← parts_all]
    split
    · rename_i clash
      obtain ⟨part,member,both⟩ := any_eq_true.mp clash
      rw [Bool.and_eq_true,decide_eq_true_eq] at both
      symm
      change List.all _ (eval taken unstated) = false
      rw [← Bool.not_eq_true,all_eq_true]
      intro all
      have first := all part member
      have second := all _ both.2
      obtain ⟨⟨item,inside,own⟩,_⟩ := mem_keptAnd.mp member
      match part,both.1 with
      | .leaf (.branch node holds),_ =>
        have apart := exclusive item inside node holds own first
        change taken node (!holds) = true at second
        rw [apart] at second
        cases second
    · have collapse : ∀ parts : List (Formula α), eval taken unstated
        (match parts with | [] => always | [part] => part | parts => .and parts) = parts.all (eval taken unstated) := by
        intro parts
        rcases parts with _ | ⟨part,_ | ⟨next,rest⟩⟩
        · rfl
        · simp
        · rw [eval,evalAll_eq]
      exact collapse _

end Values

section Leaves
variable {formula part : Formula α}

theorem leaves_orParts (member : part ∈ orParts formula) (inside : atom ∈ part.leaves) : atom ∈ formula.leaves := by
  cases formula with
  | or parts =>
    rw [leaves,leavesAll_eq]
    exact mem_flatMap.mpr ⟨part,member,inside⟩
  | _ => rwa [mem_singleton.mp member] at inside

theorem leaves_andParts (member : part ∈ andParts formula) (inside : atom ∈ part.leaves) : atom ∈ formula.leaves := by
  cases formula with
  | and parts =>
    rw [leaves,leavesAll_eq]
    exact mem_flatMap.mpr ⟨part,member,inside⟩
  | _ => rwa [mem_singleton.mp member] at inside

theorem leaves_withinBudget (supported : formula.withinBudget.supported = true) :
    formula.withinBudget = formula ∧ formula.supported = true ∧ formula.leaves.length ≤ reachLeafBudget := by
  unfold withinBudget at supported ⊢
  split
  · rename_i exceeds
    rw [if_pos exceeds] at supported
    cases supported
  · rename_i fits
    rw [if_neg fits] at supported
    exact ⟨rfl,supported,Nat.le_of_not_lt fits⟩

variable [DecidableEq α] {items : List (Formula α)}

theorem leaves_orOf (inside : atom ∈ (orOf items).leaves) : (atom = .always ∨ atom = .never) ∨
    ∃ item ∈ items, atom ∈ item.leaves := by
  unfold orOf at inside
  split at inside
  · exact .inl (.inl (mem_singleton.mp inside))
  · have parts := @mem_keptOr α _ items
    generalize keptOr items = kept at inside parts
    have from_ : ∀ part ∈ kept, atom ∈ part.leaves → ∃ item ∈ items, atom ∈ item.leaves := by
      intro part member own
      obtain ⟨⟨item,here,piece⟩,_⟩ := parts.mp member
      exact ⟨item,here,leaves_orParts piece own⟩
    rcases kept with _ | ⟨part,_ | ⟨next,rest⟩⟩
    · exact .inl (.inr (mem_singleton.mp inside))
    · exact .inr (from_ part (by simp) inside)
    · dsimp only at inside
      rw [leaves,leavesAll_eq] at inside
      obtain ⟨piece,member,own⟩ := mem_flatMap.mp inside
      exact .inr (from_ piece member own)

theorem leaves_andOf (inside : atom ∈ (andOf items).leaves) : (atom = .always ∨ atom = .never) ∨
    ∃ item ∈ items, atom ∈ item.leaves := by
  unfold andOf at inside
  split at inside
  · exact .inl (.inr (mem_singleton.mp inside))
  · have parts := @mem_keptAnd α _ items
    generalize keptAnd items = kept at inside parts
    have from_ : ∀ part ∈ kept, atom ∈ part.leaves → ∃ item ∈ items, atom ∈ item.leaves := by
      intro part member own
      obtain ⟨⟨item,here,piece⟩,_⟩ := parts.mp member
      exact ⟨item,here,leaves_andParts piece own⟩
    split at inside
    · exact .inl (.inr (mem_singleton.mp inside))
    · rcases kept with _ | ⟨part,_ | ⟨next,rest⟩⟩
      · exact .inl (.inl (mem_singleton.mp inside))
      · exact .inr (from_ part (by simp) inside)
      · dsimp only at inside
        rw [leaves,leavesAll_eq] at inside
        obtain ⟨piece,member,own⟩ := mem_flatMap.mp inside
        exact .inr (from_ piece member own)

end Leaves

end Formula

def reachDepthLimit : Nat := 64

namespace Function
variable (f : Function)

def branchOutcome (b s : Fin f.count) : Formula (Fin f.count) :=
  if f.cyclic b then .unsupported .loopIterationNotDetermined
  else if (f.node b).type ≠ .ifNode ∨ ¬ (f.node b).condition then .unsupported .branchConditionNotDetermined
  else if (f.node b).sonTrue = some s.val ∧ (f.node b).sonFalse ≠ some s.val then .branch b true
  else if (f.node b).sonFalse = some s.val ∧ (f.node b).sonTrue ≠ some s.val then .branch b false
  else .unsupported .branchConditionNotDetermined

abbrev Memo := List (Fin f.count × Formula (Fin f.count))

def parentStep (visit : Fin f.count → Memo f → Formula (Fin f.count) × Memo f) (skipped : Formula (Fin f.count))
    (join : Formula (Fin f.count) → Formula (Fin f.count) → Formula (Fin f.count))
    (acc : List (Formula (Fin f.count)) × Memo f) (parent : Fin f.count × Fin f.count) :
    List (Formula (Fin f.count)) × Memo f :=
  let outcome := f.branchOutcome parent.1 parent.2
  let (above,memo) := if outcome.isBranch then visit parent.1 acc.2 else (skipped,acc.2)
  (acc.1 ++ [join above outcome],memo)

def unreachedPart (above outcome : Formula (Fin f.count)) : Formula (Fin f.count) :=
  Formula.orOf [above,outcome.negateOutcome]

def reachedPart (assume : List (Formula (Fin f.count))) (above outcome : Formula (Fin f.count)) :
    Formula (Fin f.count) :=
  Formula.andOf [above,if outcome ∈ assume then .always else outcome]

-- `left` counts the levels below the depth limit.
def unreached : Nat → Fin f.count → Memo f → Formula (Fin f.count) × Memo f
  | left,n,memo =>
    match List.lookup n memo with
    | some known => (known,memo)
    | none =>
      if ¬ f.reachesExit n then
        (.unsupported .gateOnRevertingPath,Dict.put n (.unsupported .gateOnRevertingPath) memo)
      else
        match left with
        | 0 => (.unsupported .gateReachConditionBudget,memo)
        | left + 1 =>
          let (conjuncts,memo) := (f.controlParents n).foldl (f.parentStep (unreached left) .never f.unreachedPart)
            ([],memo)
          let result := if conjuncts.isEmpty then .never else Formula.andOf conjuncts
          (result,Dict.put n result memo)

def reached (assume : List (Formula (Fin f.count))) : Nat → Fin f.count → Memo f → Formula (Fin f.count) × Memo f
  | left,n,memo =>
    match List.lookup n memo with
    | some known => (known,memo)
    | none =>
      if ¬ f.reachesExit n then (.never,Dict.put n .never memo)
      else
        match left with
        | 0 => (.unsupported .gateReachConditionBudget,memo)
        | left + 1 =>
          let (disjuncts,memo) := (f.controlParents n).foldl
            (f.parentStep (reached assume left) .always (f.reachedPart assume)) ([],memo)
          let result := if disjuncts.isEmpty then .always else Formula.orOf disjuncts
          (result,Dict.put n result memo)

-- The formulas of the anchors in turn, up to one that is no node here.
def unreachedAll : List (Option Nat) → Memo f → Option (List (Formula (Fin f.count))) × Memo f
  | [],memo => (some [],memo)
  | anchor :: rest,memo =>
    match anchor.bind f.index with
    | none => (none,memo)
    | some n =>
      let (formula,memo) := f.unreached (reachDepthLimit + 1) n memo
      let (formulas,memo) := unreachedAll rest memo
      (formulas.map (formula :: ·),memo)

-- `None` says that one anchor is always reached. The memo outlives the call.
def unreachedFormula (anchors : List (Option Nat)) (memo : Memo f) : Option (Formula (Fin f.count)) × Memo f :=
  match f.unreachedAll anchors memo with
  | (none,memo) => (some (.unsupported .gateLocationNotDetermined),memo)
  | (some formulas,memo) =>
    let combined := if formulas.isEmpty then .never else Formula.andOf formulas
    (if combined = .never then none else some combined.withinBudget,memo)

def reachedFormula (node : Nat) (assume : List (Formula (Fin f.count)) := []) : Formula (Fin f.count) :=
  match f.index node with
  | none => .unsupported .gateLocationNotDetermined
  | some n =>
    let formula := (f.reached assume (reachDepthLimit + 1) n []).1
    if formula = .always ∨ formula = .never then formula else formula.withinBudget

end Function

end Psat.Predicates
