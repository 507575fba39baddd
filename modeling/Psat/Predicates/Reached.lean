import Psat.General.Paired
import Psat.Predicates.Formula

namespace Psat.Predicates
open Psat.General List

namespace Function
variable {f : Function}

def son (f : Function) (b : Fin f.count) (holds : Bool) : Option Nat :=
  if holds then (f.node b).sonTrue else (f.node b).sonFalse

-- Whether a run goes from a branch to the son of one of its outcomes.
def taken (f : Function) (path : List (Fin f.count)) (b : Fin f.count) (holds : Bool) : Bool :=
  (path.zip path.tail).any fun step => decide (step.1 = b) && decide (f.son b holds = some step.2.val)

-- A branch whose outcome a formula may state.
def Decided (f : Function) (b : Fin f.count) : Prop := f.cyclic b = false ∧ f.son b true ≠ f.son b false

def AllDecided (formula : Formula (Fin f.count)) : Prop := ∀ b holds, .branch b holds ∈ formula.leaves → Decided f b

theorem taken_iff : f.taken path b holds = true ↔ ∃ s, Steps path b s ∧ f.son b holds = some s.val := by
  simp only [taken,any_eq_true,Bool.and_eq_true,decide_eq_true_eq]
  constructor
  · rintro ⟨⟨x,s⟩,step,rfl,son⟩
    exact ⟨s,step,son⟩
  · rintro ⟨s,step,son⟩
    exact ⟨(b,s),step,rfl,son⟩

theorem Runs.exclusive (runs : Runs f v path) (decided : Decided f b)
    (first : f.taken path b holds = true) : f.taken path b (!holds) = false := by
  rw [← Bool.not_eq_true]
  intro second
  obtain ⟨s,step,son⟩ := taken_iff.mp first
  obtain ⟨s',step',son'⟩ := taken_iff.mp second
  have differs : s ≠ s' := by
    rintro rfl
    apply decided.2
    cases holds
    · exact son'.trans son.symm
    · exact son.trans son'.symm
  have looped := cyclic_of_cycle (runs.twice step step' differs)
  rw [decided.1] at looped
  cases looped

theorem Runs.eval_andOf (runs : Runs f v path) (decided : ∀ item ∈ items, AllDecided item) :
    (Formula.andOf items).eval (f.taken path) unstated = items.all (Formula.eval (f.taken path) unstated) := by
  apply Formula.eval_andOf
  intro item member node holds part first
  apply runs.exclusive (decided item member node holds (Formula.leaves_andParts part _)) first
  simp [Formula.leaves]

theorem branchOutcome_cases (b s : Fin f.count) : (∃ reason, f.branchOutcome b s = .unsupported reason) ∨
    ∃ holds, f.branchOutcome b s = .branch b holds ∧ f.cyclic b = false ∧ (f.node b).type = .ifNode ∧
      f.son b holds = some s.val ∧ f.son b (!holds) ≠ some s.val := by
  fun_cases branchOutcome f b s with
  | case3 straight branching toTrue =>
    rw [not_or,not_not] at branching
    exact .inr ⟨true,rfl,by simpa using straight,branching.1,toTrue.1,toTrue.2⟩
  | case4 straight branching _ toFalse =>
    rw [not_or,not_not] at branching
    exact .inr ⟨false,rfl,by simpa using straight,branching.1,toFalse.1,toFalse.2⟩
  | _ => exact .inl ⟨_,rfl⟩

theorem outcome_decided (b s : Fin f.count) : AllDecided (f.branchOutcome b s) := by
  intro x way inside
  rcases branchOutcome_cases b s with ⟨reason,outcome⟩ | ⟨_,outcome,straight,_,son,other⟩
  · simp [outcome,Formula.leaves] at inside
  · rw [outcome] at inside
    cases mem_singleton.mp inside
    refine ⟨straight,fun same => other ?_⟩
    cases way
    · exact same.trans son
    · exact same.symm.trans son

theorem AllDecided.negateOutcome (decided : AllDecided formula) : AllDecided (f:=f) formula.negateOutcome := by
  unfold Formula.negateOutcome
  split
  · intro b way inside
    cases mem_singleton.mp inside
    exact decided _ _ (mem_singleton_self _)
  · exact decided

theorem AllDecided.orOf (each : ∀ item ∈ items, AllDecided (f:=f) item) : AllDecided (.orOf items) := by
  intro b way inside
  rcases Formula.leaves_orOf inside with constant | ⟨item,member,own⟩
  · simp at constant
  · exact each item member b way own

theorem AllDecided.andOf (each : ∀ item ∈ items, AllDecided (f:=f) item) : AllDecided (.andOf items) := by
  intro b way inside
  rcases Formula.leaves_andOf inside with constant | ⟨item,member,own⟩
  · simp at constant
  · exact each item member b way own

theorem parentSteps (skipped : Formula (Fin f.count))
    (join : Formula (Fin f.count) → Formula (Fin f.count) → Formula (Fin f.count))
    {good : Fin f.count → Formula (Fin f.count) → Prop}
    (visits : ∀ n memo, (∀ k known, List.lookup k memo = some known → good k known) →
      good n (visit n memo).1 ∧ ∀ k known, List.lookup k (visit n memo).2 = some known → good k known)
    (parents : List (Fin f.count × Fin f.count)) (acc : List (Formula (Fin f.count)) × Memo f)
    (kept : ∀ k known, List.lookup k acc.2 = some known → good k known) :
    (∀ k known, List.lookup k (parents.foldl (f.parentStep visit skipped join) acc).2 = some known → good k known) ∧
    ∃ parts, (parents.foldl (f.parentStep visit skipped join) acc).1 = acc.1 ++ parts ∧
      List.Forall₂ (fun parent part => ∃ above, part = join above (f.branchOutcome parent.1 parent.2) ∧
        ((f.branchOutcome parent.1 parent.2).isBranch = true → good parent.1 above) ∧
        ((f.branchOutcome parent.1 parent.2).isBranch = false → above = skipped)) parents parts := by
  induction parents generalizing acc with
  | nil => exact ⟨kept,[],by simp,.nil⟩
  | cons parent rest ih =>
    rw [foldl_cons]
    by_cases outcome : (f.branchOutcome parent.1 parent.2).isBranch = true
    · obtain ⟨right,after⟩ := visits parent.1 acc.2 kept
      have step : f.parentStep visit skipped join acc parent =
        (acc.1 ++ [join (visit parent.1 acc.2).1 (f.branchOutcome parent.1 parent.2)],(visit parent.1 acc.2).2) := by
        simp [parentStep,outcome]
      obtain ⟨memo,parts,all,each⟩ := ih (f.parentStep visit skipped join acc parent) (by rw [step]; exact after)
      refine ⟨memo,_ :: parts,?_,.cons ⟨_,rfl,fun _ => right,fun unstated => by simp [outcome] at unstated⟩ each⟩
      rw [all,step]
      simp
    · have step : f.parentStep visit skipped join acc parent =
        (acc.1 ++ [join skipped (f.branchOutcome parent.1 parent.2)],acc.2) := by
        simp [parentStep,outcome]
      obtain ⟨memo,parts,all,each⟩ := ih (f.parentStep visit skipped join acc parent) (by rw [step]; exact kept)
      refine ⟨memo,_ :: parts,?_,.cons ⟨_,rfl,fun stated => absurd stated outcome,fun _ => rfl⟩ each⟩
      rw [all,step]
      simp

end Function

-- Every node is reached, and `if` nodes go to the sons of their two outcomes only.
structure Graph extends Function where
  entry : Fin toFunction.count
  reachable : ∀ v, Relation.ReflTransGen (Function.Edge toFunction) entry v
  twoWay : ∀ b, (toFunction.node b).type = .ifNode → ∀ s ∈ toFunction.succ b, ∃ holds,
    toFunction.son b holds = some s.val

namespace Graph
open Psat.Predicates.Function
variable {g : Graph}

abbrev Run (g : Graph) (path : List (Fin g.count)) : Prop := Runs g.toFunction g.entry path

def Assumed (g : Graph) (assume : List (Formula (Fin g.count))) (path : List (Fin g.count)) : Prop :=
  ∀ outcome ∈ assume, outcome.eval (g.taken path) false = true

-- The formula holds on the runs through `n`, and with its unstated leaves left
-- out on no others.
structure Follows (g : Graph) (assume : List (Formula (Fin g.count))) (n : Fin g.count)
    (formula : Formula (Fin g.count)) : Prop where
  decided : AllDecided formula
  upper : ∀ path, Run g path → Assumed g assume path → n ∈ path → formula.eval (g.taken path) true = true
  lower : ∀ path, Run g path → Assumed g assume path → formula.eval (g.taken path) false = true → n ∈ path

-- The same for the runs that do not pass `n`.
structure Avoids (g : Graph) (n : Fin g.count) (formula : Formula (Fin g.count)) : Prop where
  decided : AllDecided formula
  upper : ∀ path, Run g path → n ∉ path → formula.eval (g.taken path) true = true
  lower : ∀ path, Run g path → formula.eval (g.taken path) false = true → n ∉ path

theorem decided_leaf (plain : ∀ b holds, atom ≠ .branch b holds) : AllDecided (.leaf atom : Formula (Fin g.count)) := by
  intro b holds inside
  exact absurd (mem_singleton.mp inside).symm (plain b holds)

theorem follows_budget : Follows g given n (.unsupported .gateReachConditionBudget) :=
  ⟨decided_leaf (by simp),fun _ _ _ _ => rfl,fun _ _ _ holds => nomatch holds⟩

theorem avoids_unstated : Avoids g n (.unsupported reason) :=
  ⟨decided_leaf (by simp),fun _ _ _ => rfl,fun _ _ holds => nomatch holds⟩

theorem follows_dead (dead : g.reachesExit n = false) : Follows g given n .never := by
  refine ⟨decided_leaf (by simp),?_,fun _ _ _ holds => nomatch holds⟩
  intro path runs _ member
  obtain ⟨rest,onward⟩ := runs.from member
  rw [onward.reachesExit] at dead
  cases dead

theorem passes_of_no_parents (reaches : g.reachesExit n = true) (free : g.controlParents n = []) (runs : Run g path) :
    n ∈ path := by
  by_cases bound : PostDominates g.toFunction n g.entry
  · exact runs.passes bound
  · obtain ⟨rest,onward⟩ := (reachesExit_iff n).mp reaches
    obtain ⟨before,other⟩ := onward.back (g.reachable n)
    obtain ⟨more,shape⟩ := onward.head
    obtain ⟨b,s,_,parent⟩ := other.turns (by simp [shape]) bound
    rw [free] at parent
    cases parent

theorem parent_taken (runs : Run g path) (member : n ∈ path) (depends : g.controlParents n ≠ []) :
    ∃ b s, (b,s) ∈ g.controlParents n ∧ (Steps path b s ∨ g.cyclic b = true) := by
  by_cases bound : PostDominates g.toFunction n g.entry
  · obtain ⟨⟨b,s⟩,parent⟩ := exists_mem_of_ne_nil _ depends
    exact ⟨b,s,parent,.inr (cyclic_of_cycle (controlParent_cycle (g.reachable b) bound parent))⟩
  · obtain ⟨b,s,step,parent⟩ := runs.turns member bound
    exact ⟨b,s,parent,.inl step⟩

theorem step_passes (runs : Run g path) (step : Steps path b s) (parent : (b,s) ∈ g.controlParents n) : n ∈ path := by
  obtain ⟨_,_,rest,onward,inside⟩ := runs.step_from step
  exact inside (onward.passes (mem_controlParents.mp parent).2.2.2.2.1)

theorem eval_assumed (assumed : Assumed g given path) :
    (if .leaf atom ∈ given then Formula.always else .leaf atom).eval (g.taken path) unstated =
      Formula.eval (g.taken path) unstated (.leaf atom) := by
  split
  · rename_i inside
    have holds := assumed _ inside
    cases atom with
    | always => rfl
    | branch => exact holds.symm
    | _ => cases holds
  · rfl

def ReachedPart (g : Graph) (assume : List (Formula (Fin g.count))) (parent : Fin g.count × Fin g.count)
    (part : Formula (Fin g.count)) : Prop :=
  ∃ above, part = g.reachedPart assume above (g.branchOutcome parent.1 parent.2) ∧
    ((g.branchOutcome parent.1 parent.2).isBranch = true → Follows g assume parent.1 above) ∧
    ((g.branchOutcome parent.1 parent.2).isBranch = false → above = .always)

theorem reached_items (right : ((g.branchOutcome b s).isBranch = true → Follows g given b above) ∧
    ((g.branchOutcome b s).isBranch = false → above = .always)) :
    ∀ item ∈ [above,if g.branchOutcome b s ∈ given then .always else g.branchOutcome b s], AllDecided item := by
  simp only [mem_cons,not_mem_nil,or_false,forall_eq_or_imp,forall_eq]
  constructor
  · cases stated : (g.branchOutcome b s).isBranch with
    | true => exact (right.1 stated).decided
    | false => exact right.2 stated ▸ decided_leaf (by simp)
  · split
    · exact decided_leaf (by simp)
    · exact outcome_decided b s

theorem ReachedPart.bounds (contributes : ReachedPart g given (b,s) part) (runs : Run g path)
    (assumed : Assumed g given path) :
    (Steps path b s ∨ g.cyclic b = true → part.eval (g.taken path) true = true) ∧
    (part.eval (g.taken path) false = true → Steps path b s) := by
  obtain ⟨above,rfl,right⟩ := contributes
  have value (unstated : Bool) : (g.reachedPart given above (g.branchOutcome b s)).eval (g.taken path) unstated =
    (above.eval (g.taken path) unstated && (g.branchOutcome b s).eval (g.taken path) unstated) := by
    rw [reachedPart,runs.eval_andOf (reached_items right),all_cons,all_cons,all_nil,Bool.and_true]
    rcases branchOutcome_cases b s with ⟨reason,outcome⟩ | ⟨way,outcome,_⟩
    · rw [outcome,eval_assumed assumed]
    · rw [outcome,eval_assumed assumed]
  rw [value true,value false]
  dsimp only at right
  rcases branchOutcome_cases b s with ⟨reason,outcome⟩ | ⟨way,outcome,straight,_,son,other⟩
  · rw [outcome] at right ⊢
    obtain rfl := right.2 rfl
    exact ⟨fun _ => rfl,fun holds => nomatch holds⟩
  · rw [outcome] at right ⊢
    constructor
    · rintro (step | looped)
      · have through := (right.1 rfl).upper path runs assumed (runs.step_from step).2.1
        rw [through,Bool.true_and]
        exact taken_iff.mpr ⟨s,step,son⟩
      · rw [straight] at looped
        cases looped
    · intro both
      rw [Bool.and_eq_true] at both
      obtain ⟨s',step,same⟩ := taken_iff.mp both.2
      rw [son,Option.some.injEq] at same
      rwa [Fin.ext same]

theorem follows_parts (reaches : g.reachesExit n = true)
    (each : List.Forall₂ (ReachedPart g given) (g.controlParents n) parts) :
    Follows g given n (if parts.isEmpty then .always else .orOf parts) := by
  by_cases empty : parts = []
  · subst empty
    have free : g.controlParents n = [] := forall₂_nil_right_iff.mp each
    exact ⟨decided_leaf (by simp),fun _ _ _ _ => rfl,fun path runs _ _ => passes_of_no_parents reaches free runs⟩
  · rw [if_neg (by simpa using empty)]
    have depends : g.controlParents n ≠ [] := by
      intro none_
      rw [none_] at each
      exact empty (forall₂_nil_left_iff.mp each)
    constructor
    · apply AllDecided.orOf
      intro part member
      obtain ⟨parent,_,above,rfl,right⟩ := Paired.right_partner each member
      exact .andOf (reached_items right)
    · intro path runs assumed member
      obtain ⟨b,s,parent,reason⟩ := parent_taken runs member depends
      obtain ⟨part,inside,contributes⟩ := Paired.left_partner each parent
      rw [Formula.eval_orOf]
      exact any_eq_true.mpr ⟨part,inside,(contributes.bounds runs assumed).1 reason⟩
    · intro path runs assumed holds
      rw [Formula.eval_orOf,any_eq_true] at holds
      obtain ⟨part,inside,holds⟩ := holds
      obtain ⟨⟨b,s⟩,parent,contributes⟩ := Paired.right_partner each inside
      exact step_passes runs ((contributes.bounds runs assumed).2 holds) parent

theorem put_good {good : Fin g.count → Formula (Fin g.count) → Prop} (right : good n formula)
    (kept : ∀ k known, List.lookup k memo = some known → good k known) :
    ∀ k known, List.lookup k (Dict.put n formula memo) = some known → good k known := by
  intro k known found
  rw [Dict.lookup_put] at found
  split at found
  · rename_i same
    cases found
    exact same ▸ right
  · exact kept k known found

theorem reached_follows (left : Nat) (n : Fin g.count) (memo : Memo g.toFunction)
    (kept : ∀ k known, List.lookup k memo = some known → Follows g given k known) : Follows g given n
    (g.reached given left n memo).1 ∧
      ∀ k known, List.lookup k (g.reached given left n memo).2 = some known → Follows g given k known := by
  unfold reached
  split
  · rename_i known found
    exact ⟨kept n known found,kept⟩
  · split
    · rename_i dead
      rw [Bool.not_eq_true] at dead
      exact ⟨follows_dead dead,put_good (follows_dead dead) kept⟩
    · rename_i alive
      rw [not_not] at alive
      cases left with
      | zero => exact ⟨follows_budget,kept⟩
      | succ left =>
        obtain ⟨memo',parts,all,each⟩ := parentSteps .always (g.reachedPart given) (reached_follows left)
          (g.controlParents n) ([],memo) kept
        have right := follows_parts alive each
        dsimp only
        rw [all,nil_append]
        exact ⟨right,put_good right memo'⟩

def AvoidsPart (g : Graph) (parent : Fin g.count × Fin g.count) (part : Formula (Fin g.count)) : Prop :=
  ∃ above, part = g.unreachedPart above (g.branchOutcome parent.1 parent.2) ∧
    ((g.branchOutcome parent.1 parent.2).isBranch = true → Avoids g parent.1 above) ∧
    ((g.branchOutcome parent.1 parent.2).isBranch = false → above = .never)

theorem AvoidsPart.decided (contributes : AvoidsPart g parent part) : AllDecided part := by
  obtain ⟨above,rfl,right⟩ := contributes
  apply AllDecided.orOf
  simp only [mem_cons,not_mem_nil,or_false,forall_eq_or_imp,forall_eq]
  refine ⟨?_,(outcome_decided _ _).negateOutcome⟩
  cases stated : (g.branchOutcome parent.1 parent.2).isBranch with
  | true => exact (right.1 stated).decided
  | false => exact right.2 stated ▸ decided_leaf (by simp)

theorem AvoidsPart.bounds (contributes : AvoidsPart g (b,s) part) (edge : s ∈ g.succ b) (runs : Run g path) :
    (¬ Steps path b s → part.eval (g.taken path) true = true) ∧
    (part.eval (g.taken path) false = true → ¬ Steps path b s ∧ g.cyclic b = false) := by
  obtain ⟨above,rfl,right⟩ := contributes
  rw [unreachedPart,Formula.eval_orOf,Formula.eval_orOf]
  simp only [any_cons,any_nil,Bool.or_false,Bool.or_eq_true]
  dsimp only at right
  rcases branchOutcome_cases b s with ⟨reason,outcome⟩ | ⟨way,outcome,straight,branching,son,other⟩
  · rw [outcome] at right ⊢
    obtain rfl := right.2 rfl
    exact ⟨fun _ => .inr rfl,fun holds => holds.elim nofun nofun⟩
  · rw [outcome] at right ⊢
    have right := right.1 rfl
    constructor
    · intro away
      by_cases member : b ∈ path
      · have inner : g.isExit b = false := by
          rw [← Bool.not_eq_true]
          intro exit
          rw [isExit_succ exit] at edge
          cases edge
        obtain ⟨s',next,step⟩ := runs.leaves member inner
        obtain ⟨went,toward⟩ := g.twoWay b branching s' next
        have differs : went = !way := by
          by_contra same
          have same : went = way := by cases went <;> cases way <;> simp_all
          rw [same,son,Option.some.injEq] at toward
          exact away (Fin.ext toward ▸ step)
        right
        rw [differs] at toward
        exact taken_iff.mpr ⟨s',step,toward⟩
      · exact .inl (right.upper path runs member)
    · intro holds
      refine ⟨?_,straight⟩
      intro step
      rcases holds with absent | elsewhere
      · exact right.lower path runs absent (runs.step_from step).2.1
      · have here : g.taken path b way = true := taken_iff.mpr ⟨s,step,son⟩
        have away := runs.exclusive (outcome_decided b s b way (by simp [outcome,Formula.leaves])) here
        change g.taken path b (!way) = true at elsewhere
        rw [away] at elsewhere
        cases elsewhere

theorem avoids_parts (reaches : g.reachesExit n = true)
    (each : List.Forall₂ (AvoidsPart g) (g.controlParents n) parts) :
    Avoids g n (if parts.isEmpty then .never else .andOf parts) := by
  by_cases empty : parts = []
  · subst empty
    have free : g.controlParents n = [] := forall₂_nil_right_iff.mp each
    exact ⟨decided_leaf (by simp),fun path runs away => absurd (passes_of_no_parents reaches free runs) away,
      fun _ _ holds => nomatch holds⟩
  · rw [if_neg (by simpa using empty)]
    have depends : g.controlParents n ≠ [] := by
      intro none_
      rw [none_] at each
      exact empty (forall₂_nil_left_iff.mp each)
    have decided : ∀ part ∈ parts, AllDecided part := by
      intro part member
      obtain ⟨parent,_,contributes⟩ := Paired.right_partner each member
      exact contributes.decided
    constructor
    · exact .andOf decided
    · intro path runs away
      rw [runs.eval_andOf decided,all_eq_true]
      intro part inside
      obtain ⟨⟨b,s⟩,parent,contributes⟩ := Paired.right_partner each inside
      apply (contributes.bounds (mem_controlParents.mp parent).2.2.1 runs).1
      exact fun step => away (step_passes runs step parent)
    · intro path runs holds member
      rw [runs.eval_andOf decided,all_eq_true] at holds
      obtain ⟨b,s,parent,reason⟩ := parent_taken runs member depends
      obtain ⟨part,inside,contributes⟩ := Paired.left_partner each parent
      obtain ⟨away,straight⟩ := (contributes.bounds (mem_controlParents.mp parent).2.2.1 runs).2 (holds part inside)
      rcases reason with step | looped
      · exact away step
      · rw [straight] at looped
        cases looped

theorem unreached_avoids (left : Nat) (n : Fin g.count) (memo : Memo g.toFunction)
    (kept : ∀ k known, List.lookup k memo = some known → Avoids g k known) : Avoids g n (g.unreached left n memo).1 ∧
      ∀ k known, List.lookup k (g.unreached left n memo).2 = some known → Avoids g k known := by
  unfold unreached
  split
  · rename_i known found
    exact ⟨kept n known found,kept⟩
  · split
    · exact ⟨avoids_unstated,put_good avoids_unstated kept⟩
    · rename_i alive
      rw [not_not] at alive
      cases left with
      | zero => exact ⟨avoids_unstated,kept⟩
      | succ left =>
        obtain ⟨memo',parts,all,each⟩ := parentSteps .never g.unreachedPart (unreached_avoids left)
          (g.controlParents n) ([],memo) kept
        have right := avoids_parts alive each
        dsimp only
        rw [all,nil_append]
        exact ⟨right,put_good right memo'⟩

end Graph

end Psat.Predicates
