import Psat.Predicates.Reached

namespace Psat.Predicates
open Psat.General List Formula

def Leaf.dual : Leaf α → Leaf α
  | .always => .never
  | .never => .always
  | .branch node holds => .branch node (!holds)
  | .unsupported reason => .unsupported reason

namespace Formula

mutual

-- Every outcome the other way round, conjunctions and disjunctions exchanged.
def dual : Formula α → Formula α
  | .leaf atom => .leaf atom.dual
  | .and parts => .or (dualAll parts)
  | .or parts => .and (dualAll parts)

def dualAll : List (Formula α) → List (Formula α)
  | [] => []
  | part :: rest => dual part :: dualAll rest

end

theorem dualAll_eq (parts : List (Formula α)) : dualAll parts = parts.map dual := by
  induction parts with
  | nil => rfl
  | cons part rest ih => rw [dualAll,ih,map_cons]

theorem Leaf.dual_dual (atom : Leaf α) : atom.dual.dual = atom := by
  cases atom <;> simp [Leaf.dual]

mutual

theorem dual_dual : ∀ formula : Formula α, formula.dual.dual = formula
  | .leaf atom => by rw [dual,dual,Leaf.dual_dual]
  | .and parts => by rw [dual,dual,dualAll_dualAll parts]
  | .or parts => by rw [dual,dual,dualAll_dualAll parts]

theorem dualAll_dualAll : ∀ parts : List (Formula α), dualAll (dualAll parts) = parts
  | [] => rfl
  | part :: rest => by rw [dualAll,dualAll,dual_dual part,dualAll_dualAll rest]

end

mutual

theorem leaves_dual : ∀ formula : Formula α, formula.dual.leaves = formula.leaves.map Leaf.dual
  | .leaf _ => rfl
  | .and parts => by rw [dual,leaves,leaves,leavesAll_dual parts]
  | .or parts => by rw [dual,leaves,leaves,leavesAll_dual parts]

theorem leavesAll_dual : ∀ parts : List (Formula α), leavesAll (dualAll parts) = (leavesAll parts).map Leaf.dual
  | [] => rfl
  | part :: rest => by rw [dualAll,leavesAll,leavesAll,leaves_dual part,leavesAll_dual rest,map_append]

end

theorem dual_injective (a b : Formula α) (same : a.dual = b.dual) : a = b := by
  rw [← dual_dual a,same,dual_dual]

theorem supported_dual (formula : Formula α) : formula.dual.supported = formula.supported := by
  rw [supported,supported,leaves_dual,all_map]
  congr 1
  funext atom
  cases atom <;> rfl

theorem orParts_dual (formula : Formula α) : orParts formula.dual = (andParts formula).map dual := by
  cases formula with
  | leaf => rfl
  | and parts => rw [dual,orParts,andParts,dualAll_eq]
  | or => rfl

theorem mem_map_dual (formula : Formula α) {items : List (Formula α)} : formula.dual ∈ items.map dual ↔
    formula ∈ items := by
  constructor
  · intro inside
    obtain ⟨other,member,same⟩ := mem_map.mp inside
    exact dual_injective _ _ same ▸ member
  · exact mem_map_of_mem

section Simplify
variable [DecidableEq α]

theorem keptOr_dual (items : List (Formula α)) : keptOr (items.map dual) = (keptAnd items).map dual := by
  have flat : (items.map dual).flatMap orParts = (items.flatMap andParts).map dual := by
    rw [flatMap_map,map_flatMap]
    exact flatMap_congr fun formula _ => orParts_dual formula
  rw [keptOr,flat,Ordered.unique_map dual_injective,filter_map,keptAnd]
  congr 1
  apply filter_congr
  intro formula _
  apply decide_eq_decide.mpr
  exact not_congr ⟨fun same => dual_injective _ _ same,fun same => by rw [same]; rfl⟩

theorem keptAnd_dual (items : List (Formula α)) : keptAnd (items.map dual) = (keptOr items).map dual := by
  have twice : (items.map dual).map dual = items := by
    rw [map_map]
    exact (map_congr_left fun formula _ => dual_dual formula).trans (map_id _)
  have back := keptOr_dual (items.map dual)
  rw [twice] at back
  rw [back,map_map]
  exact ((map_congr_left fun formula _ => dual_dual formula).trans (map_id _)).symm

theorem orOf_dual {items : List (Formula α)} (apart : contradictory (keptAnd items) = false) :
    orOf (items.map dual) = (andOf items).dual := by
  have constant : always ∈ items.map dual ↔ never ∈ items := mem_map_dual never
  unfold orOf andOf
  by_cases short : never ∈ items
  · rw [if_pos short,if_pos (constant.mpr short)]
    rfl
  · rw [if_neg short,if_neg fun inside => short (constant.mp inside)]
    rw [apart,keptOr_dual]
    rcases keptAnd items with _ | ⟨part,_ | ⟨next,rest⟩⟩
    · rfl
    · rfl
    · simp [dual,dualAll_eq]

theorem andOf_dual {items : List (Formula α)} (apart : contradictory ((keptOr items).map dual) = false) :
    andOf (items.map dual) = (orOf items).dual := by
  have constant : never ∈ items.map dual ↔ always ∈ items := mem_map_dual always
  unfold orOf andOf
  by_cases short : always ∈ items
  · rw [if_pos short,if_pos (constant.mpr short)]
    rfl
  · rw [if_neg short,if_neg fun inside => short (constant.mp inside)]
    rw [keptAnd_dual,apart]
    rcases keptOr items with _ | ⟨part,_ | ⟨next,rest⟩⟩
    · rfl
    · rfl
    · simp [dual,dualAll_eq]

end Simplify

end Formula

namespace Graph
open Psat.Predicates.Function
variable {g : Graph}

theorem run_through (edge : s ∈ g.succ b) (reaches : g.reachesExit s = true) : ∃ path, Run g path ∧ Steps path b s := by
  obtain ⟨rest,onward⟩ := (reachesExit_iff s).mp reaches
  obtain ⟨before,runs⟩ := (Runs.step edge onward).back (g.reachable b)
  exact ⟨_,runs,steps_append before (onward.steps_cons.mpr (.inl ⟨rfl,rfl⟩))⟩

theorem reachedPart_nil : g.reachedPart [] above outcome = andOf [above,outcome] := by
  simp [reachedPart]

-- Two outcomes of one branch are never both true, so no list that holds on a run clashes.
theorem not_contradictory (runs : Run g path) (decided : ∀ item ∈ items, AllDecided item)
    (holds : ∀ item ∈ items, item.eval (g.taken path) true = true) : contradictory (keptAnd items) = false := by
  have each : ∀ part ∈ keptAnd items, part.eval (g.taken path) true = true := by
    intro part member
    obtain ⟨⟨item,inside,own⟩,_⟩ := mem_keptAnd.mp member
    have whole := holds item inside
    rw [eval_andParts,all_eq_true] at whole
    exact whole part own
  rw [← Bool.not_eq_true]
  intro clash
  obtain ⟨part,member,both⟩ := any_eq_true.mp clash
  rw [Bool.and_eq_true,decide_eq_true_eq] at both
  obtain ⟨⟨item,inside,own⟩,_⟩ := mem_keptAnd.mp member
  match part,both.1 with
  | .leaf (.branch x way),_ =>
    have away := runs.exclusive (decided item inside x way (leaves_andParts own (by simp [leaves]))) (each _ member)
    have here : g.taken path x (!way) = true := each _ both.2
    rw [away] at here
    cases here

theorem reached_apart (parent : (b,s) ∈ g.controlParents n)
    (right : ((g.branchOutcome b s).isBranch = true → Follows g [] b above) ∧
    ((g.branchOutcome b s).isBranch = false → above = .always)) :
    contradictory (keptAnd [above,g.branchOutcome b s]) = false := by
  obtain ⟨_,_,edge,reachesSon,_⟩ := mem_controlParents.mp parent
  obtain ⟨path,runs,step⟩ := run_through edge reachesSon
  refine not_contradictory runs (by simpa using reached_items right) ?_
  simp only [mem_cons,not_mem_nil,or_false,forall_eq_or_imp,forall_eq]
  rcases branchOutcome_cases b s with ⟨reason,outcome⟩ | ⟨way,outcome,straight,_,son,other⟩
  · rw [outcome] at right ⊢
    rw [right.2 rfl]
    exact ⟨rfl,rfl⟩
  · rw [outcome] at right ⊢
    have assumed : Assumed g [] path := fun _ none => absurd none not_mem_nil
    exact ⟨(right.1 rfl).upper path runs assumed (runs.step_from step).2.1,taken_iff.mpr ⟨s,step,son⟩⟩

theorem not_both_sons (first : (b,s) ∈ g.controlParents n)
    (second : (b,s') ∈ g.controlParents n) (straight : g.cyclic b = false) (branching : (g.node b).type = .ifNode)
    (son : g.son b holds = some s.val) (son' : g.son b (!holds) = some s'.val) : False := by
  obtain ⟨_,reaches,edge,reachesSon,dominates,apart⟩ := mem_controlParents.mp first
  have dominates' := (mem_controlParents.mp second).2.2.2.2.1
  have bound : PostDominates g.toFunction n b := by
    apply (postDominates_iff reaches n).mpr (.inr ⟨?_,?_⟩)
    · rw [← Bool.not_eq_true]
      intro exit
      rw [isExit_succ exit] at edge
      cases edge
    · intro t next _
      obtain ⟨way,toward⟩ := g.twoWay b branching t next
      by_cases same : way = holds
      · rw [same,son,Option.some.injEq] at toward
        rwa [← Fin.ext toward]
      · have opposite : way = !holds := by cases way <;> cases holds <;> simp_all
        rw [opposite,son',Option.some.injEq] at toward
        rwa [← Fin.ext toward]
  rcases apart with rfl | free
  · obtain ⟨rest,runs⟩ := (reachesExit_iff s).mp reachesSon
    have looped := cyclic_of_cycle (.head' edge (runs.reaches (runs.passes dominates)))
    rw [straight] at looped
    cases looped
  · exact free bound

theorem outcome_of_orParts (member : .branch x holds ∈ orParts (andOf [above,g.branchOutcome b s])) :
    g.branchOutcome b s = .branch x holds := by
  have kept : g.branchOutcome b s ∈ keptAnd [above,g.branchOutcome b s] := by
    apply mem_keptAnd.mpr
    rcases branchOutcome_cases b s with ⟨reason,outcome⟩ | ⟨way,outcome,_⟩
    · rw [outcome]
      exact ⟨⟨_,mem_cons_of_mem _ (mem_singleton.mpr rfl),by simp [andParts]⟩,by simp⟩
    · rw [outcome]
      exact ⟨⟨_,mem_cons_of_mem _ (mem_singleton.mpr rfl),by simp [andParts]⟩,by simp⟩
  unfold andOf at member
  generalize keptAnd [above,g.branchOutcome b s] = parts at member kept
  split at member
  · simp [orParts] at member
  · split at member
    · simp [orParts] at member
    · rcases parts with _ | ⟨part,_ | ⟨next,rest⟩⟩
      · cases kept
      · obtain rfl := mem_singleton.mp kept
        rcases branchOutcome_cases b s with ⟨reason,outcome⟩ | ⟨way,outcome,_⟩
        · rw [outcome] at member
          simp [orParts] at member
        · rw [outcome] at member ⊢
          exact (mem_singleton.mp member).symm
      · simp [orParts] at member

theorem unreached_apart
    (each : List.Forall₂ (fun parent part => ∃ above, part = andOf [above,g.branchOutcome parent.1 parent.2])
    (g.controlParents n) parts) : contradictory ((keptOr parts).map dual) = false := by
  -- Each clashing outcome is the outcome of an edge the node depends on.
  have edge : ∀ x holds, .branch x holds ∈ (keptOr parts).map dual → ∃ s, (x,s) ∈ g.controlParents n ∧
    g.cyclic x = false ∧ (g.node x).type = .ifNode ∧ g.son x (!holds) = some s.val := by
    intro x holds inside
    obtain ⟨part,member,shape⟩ := mem_map.mp inside
    obtain rfl : part = .branch x (!holds) := dual_injective _ _ (by rw [shape]; simp [dual,Leaf.dual])
    obtain ⟨⟨item,here,own⟩,_⟩ := mem_keptOr.mp member
    obtain ⟨⟨b,s⟩,parent,above,rfl⟩ := Paired.right_partner each here
    have outcome := outcome_of_orParts own
    rcases branchOutcome_cases b s with ⟨reason,other⟩ | ⟨way,other,straight,branching,son,_⟩
    · rw [outcome] at other
      cases other
    · rw [outcome] at other
      cases other
      exact ⟨s,parent,straight,branching,son⟩
  rw [← Bool.not_eq_true]
  intro clash
  obtain ⟨part,member,both⟩ := any_eq_true.mp clash
  rw [Bool.and_eq_true,decide_eq_true_eq] at both
  match part,both.1 with
  | .leaf (.branch x holds),_ =>
    obtain ⟨s,parent,straight,branching,son⟩ := edge x holds member
    obtain ⟨s',parent',_,_,son'⟩ := edge x (!holds) both.2
    exact not_both_sons parent parent' straight branching son son'

def dualMemo (memo : Memo g.toFunction) : Memo g.toFunction := memo.map fun entry => (entry.1,entry.2.dual)

theorem lookup_dualMemo : List.lookup k (dualMemo memo) = (List.lookup k memo).map dual := by
  induction memo with
  | nil => rfl
  | cons entry rest ih =>
    obtain ⟨key,formula⟩ := entry
    by_cases here : k = key
    · simp [dualMemo,here]
    · rw [Dict.lookup_cons_ne here,← ih]
      exact Dict.lookup_cons_ne here _ _

theorem put_dualMemo : Dict.put k formula.dual (dualMemo memo) = dualMemo (Dict.put k formula memo) := by
  induction memo with
  | nil => rfl
  | cons entry rest ih =>
    obtain ⟨key,old⟩ := entry
    by_cases here : key = k
    · simp [dualMemo,Dict.put,here]
    · simp only [dualMemo,map_cons,Dict.put,here,if_false] at ih ⊢
      rw [ih]

theorem parentSteps_dual {visit visit' : Fin g.count → Memo g.toFunction → Formula (Fin g.count) × Memo g.toFunction}
    (follows : ∀ b memo, (∀ k known, List.lookup k memo = some known → Follows g [] k known) →
      Follows g [] b (visit b memo).1 ∧ ∀ k known, List.lookup k (visit b memo).2 = some known → Follows g [] k known)
    (agree : ∀ b memo, g.reachesExit b = true → (∀ k known, List.lookup k memo = some known → Follows g [] k known) →
      visit' b (dualMemo memo) = ((visit b memo).1.dual,dualMemo (visit b memo).2))
    (parents : List (Fin g.count × Fin g.count)) (own : ∀ parent ∈ parents, parent ∈ g.controlParents n)
    (acc : List (Formula (Fin g.count)) × Memo g.toFunction)
    (kept : ∀ k known, List.lookup k acc.2 = some known → Follows g [] k known) :
    parents.foldl (g.parentStep visit' .never g.unreachedPart) (acc.1.map .dual,dualMemo acc.2) =
      ((parents.foldl (g.parentStep visit .always (g.reachedPart [])) acc).1.map .dual,
        dualMemo (parents.foldl (g.parentStep visit .always (g.reachedPart [])) acc).2) := by
  induction parents generalizing acc with
  | nil => rfl
  | cons parent rest ih =>
    obtain ⟨b,s⟩ := parent
    have here := own (b,s) (by simp)
    have later := (forall_mem_cons.mp own).2
    have reaches := (mem_controlParents.mp here).2.1
    have join : ∀ above, ((g.branchOutcome b s).isBranch = true → Follows g [] b above) ∧
      ((g.branchOutcome b s).isBranch = false → above = .always) →
      g.unreachedPart above.dual (g.branchOutcome b s) = (g.reachedPart [] above (g.branchOutcome b s)).dual := by
      intro above right
      rw [reachedPart_nil,← orOf_dual (reached_apart here right),unreachedPart]
      rcases branchOutcome_cases b s with ⟨reason,outcome⟩ | ⟨way,outcome,_⟩
      · rw [outcome]
        rfl
      · rw [outcome]
        rfl
    rw [foldl_cons,foldl_cons]
    cases outcome : (g.branchOutcome b s).isBranch with
    | true =>
      obtain ⟨right,after⟩ := follows b acc.2 kept
      have step : g.parentStep visit .always (g.reachedPart []) acc (b,s) =
        (acc.1 ++ [g.reachedPart [] (visit b acc.2).1 (g.branchOutcome b s)],(visit b acc.2).2) := by
        simp [parentStep,outcome]
      have step' : g.parentStep visit' .never g.unreachedPart (acc.1.map .dual,dualMemo acc.2) (b,s) =
        ((acc.1 ++ [g.reachedPart [] (visit b acc.2).1 (g.branchOutcome b s)]).map .dual,dualMemo (visit b acc.2).2) :=
          by
        simp only [parentStep,outcome,if_true,agree b acc.2 reaches kept,map_append,map_cons,map_nil]
        rw [join _ ⟨fun _ => right,fun unstated => by simp [outcome] at unstated⟩]
      rw [step,step']
      exact ih later (acc.1 ++ [_],_) after
    | false =>
      have step : g.parentStep visit .always (g.reachedPart []) acc (b,s) =
        (acc.1 ++ [g.reachedPart [] .always (g.branchOutcome b s)],acc.2) := by
        simp [parentStep,outcome]
      have step' : g.parentStep visit' .never g.unreachedPart (acc.1.map .dual,dualMemo acc.2) (b,s) =
        ((acc.1 ++ [g.reachedPart [] .always (g.branchOutcome b s)]).map .dual,dualMemo acc.2) := by
        simp only [parentStep,outcome,Bool.false_eq_true,if_false,map_append,map_cons,map_nil]
        rw [← join .always ⟨fun stated => by simp [outcome] at stated,fun _ => rfl⟩]
        rfl
      rw [step,step']
      exact ih later (acc.1 ++ [_],acc.2) kept

theorem unreached_dual (left : Nat) (n : Fin g.count) (memo : Memo g.toFunction) (reaches : g.reachesExit n = true)
    (kept : ∀ k known, List.lookup k memo = some known → Follows g [] k known) :
    g.unreached left n (dualMemo memo) = ((g.reached [] left n memo).1.dual,dualMemo (g.reached [] left n memo).2) := by
  unfold unreached reached
  rw [lookup_dualMemo]
  cases List.lookup n memo with
  | some known => rfl
  | none =>
    simp only [Option.map_none,reaches,not_true_eq_false,if_false]
    cases left with
    | zero => rfl
    | succ left =>
      obtain ⟨_,parts,all,each⟩ := parentSteps .always (g.reachedPart []) (reached_follows left)
        (g.controlParents n) ([],memo) kept
      have lockstep := parentSteps_dual (reached_follows left) (unreached_dual left) (g.controlParents n)
        (fun _ member => member) ([],memo) kept
      simp only [map_nil] at lockstep
      dsimp only
      rw [lockstep,all,nil_append]
      have result : (if (parts.map dual).isEmpty then never else andOf (parts.map dual)) =
        (if parts.isEmpty then always else orOf parts).dual := by
        cases parts with
        | nil => rfl
        | cons part rest =>
          apply andOf_dual
          apply unreached_apart
          refine each.imp ?_
          rintro parent part ⟨above,rfl,_⟩
          exact ⟨above,reachedPart_nil⟩
      rw [result,put_dualMemo]

theorem unreached_is_dual (left : Nat) (n : Fin g.count) : (g.unreached left n []).1 =
    if g.reachesExit n then (g.reached [] left n []).1.dual else .unsupported .gateOnRevertingPath := by
  split
  · rename_i reaches
    exact congrArg Prod.fst (unreached_dual left n [] reaches (by simp))
  · rename_i reverts
    unfold unreached
    simp [reverts]

end Graph

end Psat.Predicates
