import Psat.General.Reach
import Psat.Predicates.Dual

namespace Psat.Predicates
open Psat.General List Formula

namespace Formula
variable [DecidableEq α]

theorem leaves_andOf_one (formula : Formula α) : (andOf [formula]).leaves.length ≤ max 1 formula.leaves.length := by
  have own : leavesAll (andParts formula) = formula.leaves := by
    cases formula with
    | and => rfl
    | leaf => rfl
    | or => simp [andParts,leavesAll]
  have kept : (leavesAll (keptAnd [formula])).length ≤ formula.leaves.length := by
    rw [← own,leavesAll_eq,leavesAll_eq]
    have sublist : (keptAnd [formula]).Sublist (andParts formula) := by
      have whole : [formula].flatMap andParts = andParts formula := by simp
      rw [keptAnd,whole]
      exact filter_sublist.trans (Ordered.unique_sublist _)
    exact (sublist.flatMap leaves).length_le
  unfold andOf
  split
  · exact Nat.le_max_left _ _
  · split
    · exact Nat.le_max_left _ _
    · generalize keptAnd [formula] = parts at kept
      rcases parts with _ | ⟨part,_ | ⟨next,rest⟩⟩
      · exact Nat.le_max_left _ _
      · simp only [leavesAll,append_nil] at kept
        exact Nat.le_trans kept (Nat.le_max_right _ _)
      · exact Nat.le_trans kept (Nat.le_max_right _ _)

end Formula

namespace Graph
open Psat.Predicates.Function
open Formula (andOf eval_supported leaves reachLeafBudget)
variable {g : Graph} {n : Fin g.count}

def holds (g : Graph) (path : List (Fin g.count)) (formula : Formula (Fin g.count)) : Bool :=
  formula.eval (g.taken path) false

-- The memo as some earlier calls on the same graph left it.
def Earlier (g : Graph) : Memo g.toFunction → Prop :=
  Reachable (fun memo => memo = []) fun memo memo' => ∃ anchors, memo' = (g.unreachedFormula anchors memo).2

-- The condition published for one node, `None` being "never unreached".
def unreachedOf (g : Graph) (memo : Memo g.toFunction) (n : Fin g.count) : Formula (Fin g.count) :=
  (g.unreachedFormula [some n.val] memo).1.getD .never

theorem index_self : g.index n.val = some n := by simp [index]

theorem unreachedAll_good (anchors : List (Option Nat))
    (kept : ∀ k known, List.lookup k memo = some known → Avoids g k known) :
    ∀ k known, List.lookup k (g.unreachedAll anchors memo).2 = some known → Avoids g k known := by
  induction anchors generalizing memo with
  | nil => exact kept
  | cons anchor rest ih =>
    unfold unreachedAll
    split
    · exact kept
    · exact ih (unreached_avoids _ _ _ kept).2

theorem earlier_good (earlier : Earlier g memo) : ∀ k known, List.lookup k memo = some known → Avoids g k known := by
  have initial : ∀ memo : Memo g.toFunction, memo = [] → ∀ k known, List.lookup k memo = some known →
    Avoids g k known := by
    rintro _ rfl k known found
    cases found
  refine Reachable.invariant initial ?_ earlier
  rintro memo _ kept ⟨anchors,rfl⟩
  have after : (g.unreachedFormula anchors memo).2 = (g.unreachedAll anchors memo).2 := by
    unfold unreachedFormula
    split <;> simp_all
  rw [after]
  exact unreachedAll_good anchors kept

theorem unreachedOf_eq : g.unreachedOf memo n = if andOf [(g.unreached (reachDepthLimit + 1) n memo).1] =
    .never then .never
    else (andOf [(g.unreached (reachDepthLimit + 1) n memo).1]).withinBudget := by
  have all : g.unreachedAll [some n.val] memo =
    (some [(g.unreached (reachDepthLimit + 1) n memo).1],(g.unreached (reachDepthLimit + 1) n memo).2) := by
    simp [unreachedAll,index_self]
  unfold unreachedOf unreachedFormula
  rw [all]
  have some_ : [(g.unreached (reachDepthLimit + 1) n memo).1].isEmpty = false := rfl
  simp only [some_,Bool.false_eq_true,if_false]
  by_cases never_ : andOf [(g.unreached (reachDepthLimit + 1) n memo).1] = .never
  · rw [if_pos never_,if_pos never_]
    rfl
  · rw [if_neg never_,if_neg never_]
    rfl

-- A supported condition is true on exactly the runs that do not pass the node.
theorem unreached_exact (kept : ∀ k known, List.lookup k memo = some known → Avoids g k known) (runs : Run g path)
    (supported : (g.unreachedOf memo n).supported = true) : g.holds path (g.unreachedOf memo n) = true ↔ n ∉ path := by
  have avoids := (unreached_avoids (reachDepthLimit + 1) n memo kept).1
  have value : ∀ unstated, (andOf [(g.unreached (reachDepthLimit + 1) n memo).1]).eval (g.taken path) unstated =
    (g.unreached (reachDepthLimit + 1) n memo).1.eval (g.taken path) unstated := by
    intro unstated
    rw [runs.eval_andOf]
    · simp
    · intro item member
      rw [mem_singleton.mp member]
      exact avoids.decided
  have same : g.unreachedOf memo n = .andOf [(g.unreached (reachDepthLimit + 1) n memo).1] := by
    rw [unreachedOf_eq] at supported ⊢
    split
    · rename_i constant
      exact constant.symm
    · rename_i proper
      rw [if_neg proper] at supported
      exact (leaves_withinBudget supported).1
  unfold holds
  constructor
  · intro true_
    rw [same,value false] at true_
    exact avoids.lower path runs true_
  · intro away
    rw [eval_supported supported false true,same,value true]
    exact avoids.upper path runs away

theorem reachedFormula_eq : g.reachedFormula n =
    if (g.reached [] (reachDepthLimit + 1) n []).1 = .always ∨ (g.reached [] (reachDepthLimit + 1) n []).1 = .never then
      (g.reached [] (reachDepthLimit + 1) n []).1 else (g.reached [] (reachDepthLimit + 1) n []).1.withinBudget := by
  simp [reachedFormula,index_self]

theorem reached_fits (supported : (g.reachedFormula n).supported = true) :
    g.reachedFormula n = (g.reached [] (reachDepthLimit + 1) n []).1 ∧
      (g.reached [] (reachDepthLimit + 1) n []).1.leaves.length ≤ reachLeafBudget := by
  rw [reachedFormula_eq] at supported ⊢
  split
  · rename_i constant
    rcases constant with same | same <;> simp [same,leaves,reachLeafBudget]
  · rename_i proper
    rw [if_neg proper] at supported
    obtain ⟨same,_,fits⟩ := leaves_withinBudget supported
    exact ⟨same,fits⟩

-- On a fresh graph the condition is supported wherever `reached` is.
theorem unreachedOf_supported (reaches : g.reachesExit n = true) (supported : (g.reachedFormula n).supported = true) :
    (g.unreachedOf [] n).supported = true := by
  obtain ⟨same,fits⟩ := reached_fits supported
  rw [same] at supported
  have dual := unreached_dual (reachDepthLimit + 1) n [] reaches (by simp)
  have first := congrArg Prod.fst dual
  change (g.unreached (reachDepthLimit + 1) n []).1 = _ at first
  have stated : (andOf [(g.unreached (reachDepthLimit + 1) n []).1]).supported = true := by
    apply all_eq_true.mpr
    intro atom inside
    rcases leaves_andOf inside with (rfl | rfl) | ⟨item,member,own⟩
    · rfl
    · rfl
    · rw [mem_singleton.mp member,first] at own
      rw [← supported_dual] at supported
      exact all_eq_true.mp supported atom own
  rw [unreachedOf_eq]
  split
  · rfl
  · have short := leaves_andOf_one (g.unreached (reachDepthLimit + 1) n []).1
    rw [first,leaves_dual,length_map] at short
    have budget : ¬ reachLeafBudget < (andOf [(g.unreached (reachDepthLimit + 1) n []).1]).leaves.length := by
      rw [first]
      have room : 1 ≤ reachLeafBudget := by decide
      omega
    rwa [withinBudget,if_neg budget]

-- On every run, `reached` holds exactly where the run passes the node, and
-- `unreached` where it does not and is fully stated.
theorem formulas_follow_runs (g : Graph) {path : List (Fin g.count)} (runs : Run g path) (n : Fin g.count)
    (supported : (g.reachedFormula n).supported = true) : (n ∈ path ↔ g.holds path (g.reachedFormula n) = true) ∧
    ((∃ rest, Runs g.toFunction n rest) → (g.unreachedOf [] n).supported = true ∧
      (g.holds path (g.unreachedOf [] n) = true ↔ n ∉ path)) ∧
    ∀ memo, Earlier g memo → (g.unreachedOf memo n).supported = true →
    (g.holds path (g.unreachedOf memo n) = true ↔ n ∉ path) := by
  have follows : Follows g [] n (g.reachedFormula n) := by
    rw [(reached_fits supported).1]
    exact (reached_follows (reachDepthLimit + 1) n [] (by simp)).1
  have assumed : Assumed g [] path := by
    intro outcome member
    cases member
  refine ⟨⟨?_,follows.lower path runs assumed⟩,?_,?_⟩
  · intro member
    rw [holds,eval_supported supported false true]
    exact follows.upper path runs assumed member
  · intro exits
    have stated := unreachedOf_supported ((reachesExit_iff n).mpr exits) supported
    exact ⟨stated,unreached_exact (by simp) runs stated⟩
  · intro memo earlier stated
    exact unreached_exact (earlier_good earlier) runs stated

def denyFunction : Function where
  nodes :=
    [ {type:=.ifNode,sons:=[some 1,some 2],sonTrue:=some 1,sonFalse:=some 2,condition:=true},
        {type:=.other,terminates:=true},
        {type:=.returnNode} ]

def denyGraph : Graph where
  toFunction := denyFunction
  entry := ⟨0,by decide⟩
  reachable := by
    have edges : ∀ v : Fin denyFunction.count, v = ⟨0,by decide⟩ ∨ v ∈ denyFunction.succ ⟨0,by decide⟩ :=
      by decide +kernel
    intro v
    rcases edges v with rfl | edge
    · exact .refl
    · exact .single edge
  twoWay := by decide +kernel

-- The revert is on no successful run, yet the condition for not reaching it is
-- left unstated.
theorem revert_left_unstated : Run denyGraph [⟨0,by decide⟩,⟨2,by decide⟩] ∧
    (denyGraph.reachedFormula 1).supported = true ∧ (⟨1,by decide⟩ : Fin denyGraph.count) ∉
    [⟨0,by decide⟩,⟨2,by decide⟩] ∧
    denyGraph.unreachedOf [] ⟨1,by decide⟩ = .unsupported .gateOnRevertingPath ∧
    denyGraph.holds [⟨0,by decide⟩,⟨2,by decide⟩] (denyGraph.unreachedOf [] ⟨1,by decide⟩) = false := by
  refine ⟨.step (w:=⟨2,by decide⟩) (by decide +kernel) (.exit (by decide +kernel)),by decide +kernel,
    by decide,by decide +kernel,by decide +kernel⟩

-- `if (done) return; work();`
def earlyReturn : Function where
  nodes :=
    [ {type:=.ifNode,sons:=[some 1,some 2],sonTrue:=some 1,sonFalse:=some 2,condition:=true},
        {type:=.returnNode},
        {type:=.other,sons:=[some 3]},
        {type:=.other} ]

def earlyGraph : Graph where
  toFunction := earlyReturn
  entry := ⟨0,by decide⟩
  reachable := by
    have edges : ∀ v : Fin earlyReturn.count, v = ⟨0,by decide⟩ ∨ v ∈ earlyReturn.succ ⟨0,by decide⟩ ∨
      v ∈ earlyReturn.succ ⟨2,by decide⟩ ∧ ⟨2,by decide⟩ ∈ earlyReturn.succ ⟨0,by decide⟩ := by decide +kernel
    intro v
    rcases edges v with rfl | edge | ⟨edge,first⟩
    · exact .refl
    · exact .single edge
    · exact .tail (.single first) edge
  twoWay := by decide +kernel

theorem formulas_follow_runs_early : Run earlyGraph [⟨0,by decide⟩,⟨1,by decide⟩] ∧
    ((⟨2,by decide⟩ : Fin earlyGraph.count) ∈ [⟨0,by decide⟩,⟨1,by decide⟩] ↔
      earlyGraph.holds [⟨0,by decide⟩,⟨1,by decide⟩] (earlyGraph.reachedFormula 2) = true) ∧
    (earlyGraph.holds [⟨0,by decide⟩,⟨1,by decide⟩] (earlyGraph.unreachedOf [] ⟨2,by decide⟩) = true ↔
      (⟨2,by decide⟩ : Fin earlyGraph.count) ∉ [⟨0,by decide⟩,⟨1,by decide⟩]) := by
  have runs : Run earlyGraph [⟨0,by decide⟩,⟨1,by decide⟩] := .step (w:=⟨1,by decide⟩) (by decide +kernel)
    (.exit (by decide +kernel))
  have onward : ∃ rest, Runs earlyGraph.toFunction ⟨2,by decide⟩ rest :=
    ⟨_,.step (w:=⟨3,by decide⟩) (by decide +kernel) (.exit (by decide +kernel))⟩
  have exact_ := formulas_follow_runs earlyGraph runs ⟨2,by decide⟩ (by decide +kernel)
  exact ⟨runs,exact_.1,(exact_.2.1 onward).2⟩

end Graph

end Psat.Predicates
