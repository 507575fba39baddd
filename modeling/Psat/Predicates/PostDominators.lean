import Mathlib.Algebra.Order.BigOperators.Group.Finset
import Psat.General.Bits
import Psat.Predicates.Cfg

namespace Psat.Predicates
open Psat.General List

namespace Function
variable {f : Function}

-- The nodes a successful call goes through from a node on, an exit last.
inductive Runs (f : Function) : Fin f.count → List (Fin f.count) → Prop
  | exit {v} : f.isExit v = true → Runs f v [v]
  | step {v w rest} : w ∈ f.succ v → Runs f w rest → Runs f v (v :: rest)

def Edge (f : Function) (v w : Fin f.count) : Prop := w ∈ f.succ v

theorem mem_preds : p ∈ f.preds i ↔ i ∈ f.succ p := by simp [preds]

theorem isExit_succ (exit : f.isExit v = true) : f.succ v = [] := by
  unfold isExit at exit
  split at exit
  · rename_i returns
    simp [succ,returns]
  · split at exit
    · cases exit
    · exact List.isEmpty_iff.mp exit

def Spread.unmarked (s : Spread f) : Nat := (Finset.univ.filter fun v => s.marked v = false).card

theorem Spread.mark_unmarked (s : Spread f) : (s.mark p).work.length + (s.mark p).unmarked =
    s.work.length + s.unmarked := by
  unfold Spread.mark
  split
  · rfl
  · rename_i fresh
    have gone : (Finset.univ.filter fun v => Function.update s.marked p true v = false) =
      (Finset.univ.filter fun v => s.marked v = false).erase p := by
      ext v
      by_cases here : v = p
      · simp [here]
      · simp [here]
    have inside : p ∈ Finset.univ.filter fun v => s.marked v = false := by simpa using fresh
    have card := Finset.card_erase_add_one inside
    simp only [Spread.unmarked,gone,length_cons]
    omega

theorem Spread.marks (s : Spread f) (ps : List (Fin f.count)) (v : Fin f.count) :
    ((ps.foldl .mark s).marked v = true ↔ s.marked v = true ∨ v ∈ ps) ∧
    (v ∈ (ps.foldl .mark s).work ↔ v ∈ s.work ∨ s.marked v = false ∧ v ∈ ps) := by
  induction ps generalizing s with
  | nil => simp
  | cons p rest ih =>
    rw [foldl_cons,(ih _).1,(ih _).2]
    unfold Spread.mark
    by_cases old : s.marked p = true
    · rw [if_pos old]
      constructor
      · by_cases here : v = p
        · simp [here,old]
        · simp [here]
      · by_cases here : v = p
        · simp [here,old]
        · simp [here]
    · rw [if_neg old]
      by_cases here : v = p
      · subst here
        simp [old]
      · simp [here]

theorem Spread.marks_unmarked (s : Spread f) (ps : List (Fin f.count)) :
    (ps.foldl .mark s).work.length + (ps.foldl .mark s).unmarked = s.work.length + s.unmarked := by
  induction ps generalizing s with
  | nil => rfl
  | cons p rest ih => rw [foldl_cons,ih,Spread.mark_unmarked]

-- Marked nodes reach an exit, and a marked node not waiting has spread.
structure Spread.Ok (s : Spread f) : Prop where
  sound : ∀ v, s.marked v = true → ∃ path, Runs f v path
  exits : ∀ v, f.isExit v = true → s.marked v = true
  waiting : ∀ v ∈ s.work, s.marked v = true
  closed : ∀ w, s.marked w = true → w ∉ s.work → ∀ v, w ∈ f.succ v → s.marked v = true

theorem spread_round (s s' : Spread f) (ok : s.Ok) (moved : f.spread s = some s') :
    s'.Ok ∧ s'.work.length + s'.unmarked < s.work.length + s.unmarked := by
  unfold spread at moved
  split at moved
  · cases moved
  · rename_i i rest work
    cases moved
    have marks := Spread.marks {s with work:=rest} (f.preds i)
    have reached : ∃ path, Runs f i path := ok.sound i (ok.waiting i (by simp [work]))
    constructor
    · constructor
      · intro v marked
        rcases (marks v).1.mp marked with old | pred
        · exact ok.sound v old
        · obtain ⟨path,runs⟩ := reached
          exact ⟨_,.step (mem_preds.mp pred) runs⟩
      · intro v exit
        exact (marks v).1.mpr (.inl (ok.exits v exit))
      · intro v member
        rcases (marks v).2.mp member with old | ⟨_,pred⟩
        · exact (marks v).1.mpr (.inl (ok.waiting v (by simp [work,old])))
        · exact (marks v).1.mpr (.inr pred)
      · intro w marked idle v edge
        rw [(marks w).2,not_or] at idle
        obtain ⟨notRest,notNew⟩ := idle
        by_cases here : w = i
        · subst here
          exact (marks v).1.mpr (.inr (mem_preds.mpr edge))
        · apply (marks v).1.mpr
          rcases (marks w).1.mp marked with old | pred
          · exact .inl (ok.closed w old (by simp [work,here,notRest]) v edge)
          · have old : s.marked w = true := by
              by_contra fresh
              exact notNew ⟨by simpa using fresh,pred⟩
            exact .inl (ok.closed w old (by simp [work,here,notRest]) v edge)
    · rw [Spread.marks_unmarked]
      have shorter : s.work.length = rest.length + 1 := by simp [work]
      simp only [Spread.unmarked]
      omega

theorem exits_ok : (exits f).Ok where
  sound v marked := ⟨_,.exit marked⟩
  exits v exit := exit
  waiting v member := by
    simp only [exits,mem_reverse,mem_filter] at member
    exact member.2
  closed w marked idle := by
    simp only [exits,mem_reverse,mem_filter,mem_finRange,true_and] at idle marked
    exact absurd marked idle

theorem reachesExit_iff (v : Fin f.count) : f.reachesExit v = true ↔ ∃ path, Runs f v path := by
  have bounded : (exits f).work.length + (exits f).unmarked ≤ 2 * f.count := by
    have first : (exits f).work.length ≤ f.count := by
      simpa [exits] using length_filter_le f.isExit (List.finRange f.count)
    have second : (exits f).unmarked ≤ f.count := by
      simpa [Spread.unmarked] using Finset.card_filter_le Finset.univ fun v : Fin f.count => (exits f).marked v = false
    omega
  obtain ⟨ok,ended⟩ := Loop.run_ends Spread.Ok _ spread_round _ _ exits_ok bounded
  have empty : (Loop.run f.spread (2 * f.count) f.exits).work = [] := by
    unfold spread at ended
    split at ended
    · assumption
    · cases ended
  constructor
  · exact ok.sound v
  · rintro ⟨path,runs⟩
    induction runs with
    | exit exit => exact ok.exits _ exit
    | step edge _ ih => exact ok.closed _ ih (by simp [empty]) _ edge

theorem testBit_full (k : Nat) : f.full.testBit k = decide (k < f.count + 1) := by
  rw [full,Nat.one_shiftLeft,Nat.testBit_two_pow_sub_one]

theorem testBit_exitBit (k : Nat) : f.exitBit.testBit k = decide (k = f.count) := by
  rw [exitBit,Nat.one_shiftLeft,Nat.testBit_two_pow]
  exact decide_eq_decide.mpr eq_comm

theorem testBit_pdomValue (i : Fin f.count) (k : Nat) : (f.pdomValue masks i).testBit k =
    (((if f.isExit i then f.exitBit else f.full).testBit k && (f.live i).all fun s => (masks s).testBit k) || decide
      (k = i.val)) := by
  rw [pdomValue,Nat.testBit_or,Bits.testBit_foldl_and,Nat.one_shiftLeft,Nat.testBit_two_pow,
    decide_eq_decide.mpr (eq_comm (a:=i.val))]

-- The masks only lose bits: every node's next mask is within its present one.
def Settling (f : Function) (masks : Fin f.count → Nat) : Prop :=
  ∀ i, f.reachesExit i = true → Bits.Within (f.pdomValue masks i) (masks i)

theorem pdomValue_mono (below : ∀ i, Bits.Within (masks' i) (masks i)) (i : Fin f.count) :
    Bits.Within (f.pdomValue masks' i) (f.pdomValue masks i) := by
  intro k bit
  rw [testBit_pdomValue,Bool.or_eq_true,Bool.and_eq_true,all_eq_true] at bit ⊢
  rcases bit with ⟨start,all⟩ | own
  · exact .inl ⟨start,fun s member => below s k (all s member)⟩
  · exact .inr own

theorem pdomUpdate_settling (settling : Settling f masks) (i : Fin f.count) :
    Settling f (f.pdomUpdate masks i) ∧ ∀ j, Bits.Within (f.pdomUpdate masks i j) (masks j) := by
  unfold pdomUpdate
  split
  · rename_i reaches
    have below : ∀ j, Bits.Within (Function.update masks i (f.pdomValue masks i) j) (masks j) := by
      intro j
      by_cases here : j = i
      · subst here
        rw [Function.update_self]
        exact settling j reaches
      · rw [Function.update_of_ne here]
        exact fun _ bit => bit
    refine ⟨?_,below⟩
    intro j reachesJ k bit
    have bit := pdomValue_mono below j k bit
    by_cases here : j = i
    · subst here
      rwa [Function.update_self]
    · rw [Function.update_of_ne here]
      exact settling j reachesJ k bit
  · exact ⟨settling,fun _ _ bit => bit⟩

theorem pdomUpdates_settling (settling : Settling f masks) (order : List (Fin f.count)) :
    Settling f (order.foldl f.pdomUpdate masks) ∧ ∀ j, Bits.Within (order.foldl f.pdomUpdate masks j) (masks j) := by
  induction order generalizing masks with
  | nil => exact ⟨settling,fun _ _ bit => bit⟩
  | cons i rest ih =>
    obtain ⟨settled,below⟩ := pdomUpdate_settling settling i
    obtain ⟨final,under⟩ := ih settled
    exact ⟨final,fun j k bit => below j k (under j k bit)⟩

theorem pdomUpdates_other (order : List (Fin f.count)) {j : Fin f.count} (absent : j ∉ order) :
    order.foldl f.pdomUpdate masks j = masks j := by
  induction order generalizing masks with
  | nil => rfl
  | cons i rest ih =>
    rw [mem_cons,not_or] at absent
    rw [foldl_cons,ih absent.2]
    unfold pdomUpdate
    split
    · rw [Function.update_of_ne absent.1]
    · rfl

theorem pdomUpdates_fixed (order : List (Fin f.count)) (once : order.Nodup)
    (fixed : order.foldl f.pdomUpdate masks = masks) :
    ∀ i ∈ order, f.reachesExit i = true → f.pdomValue masks i = masks i := by
  induction order with
  | nil => intro i member; cases member
  | cons first rest ih =>
    rw [nodup_cons] at once
    rw [foldl_cons] at fixed
    have same : f.pdomUpdate masks first = masks := by
      funext j
      by_cases here : j = first
      · subst here
        have kept := @pdomUpdates_other f (f.pdomUpdate masks j) rest j once.1
        rw [fixed] at kept
        exact kept.symm
      · unfold pdomUpdate
        split
        · rw [Function.update_of_ne here]
        · rfl
    intro i member reaches
    rcases mem_cons.mp member with rfl | later
    · have own := congrFun same i
      rwa [pdomUpdate,if_pos reaches,Function.update_self] at own
    · rw [same] at fixed
      exact ih once.2 fixed i later reaches

theorem pdom_round (masks masks' : Fin f.count → Nat) (settling : Settling f masks)
    (moved : f.pdomRound masks = some masks') :
    Settling f masks' ∧ ∑ i, masks' i < ∑ i, masks i := by
  unfold pdomRound at moved
  dsimp only at moved
  split at moved
  · cases moved
  · rename_i changed
    cases moved
    obtain ⟨settled,below⟩ := pdomUpdates_settling settling (List.finRange f.count).reverse
    refine ⟨settled,?_⟩
    obtain ⟨i,differs⟩ := Function.ne_iff.mp changed
    exact Finset.sum_lt_sum (fun j _ => (below j).le) ⟨i,Finset.mem_univ i,Nat.lt_of_le_of_ne (below i).le differs⟩

theorem pdom_eq (i : Fin f.count) (reaches : f.reachesExit i = true) : f.pdomValue f.pdom i = f.pdom i := by
  have start : Settling f fun _ => f.full := by
    intro i _ k bit
    rw [testBit_pdomValue] at bit
    rw [testBit_full,decide_eq_true_eq]
    by_contra outside
    have far : ¬ k < f.count + 1 ∧ k ≠ f.count ∧ k ≠ i.val := by omega
    cases exit : f.isExit i <;> simp [exit,testBit_full,testBit_exitBit,far] at bit
  have bounded : ∑ _i : Fin f.count, f.full ≤ f.count * 2 ^ (f.count + 1) := by
    rw [Finset.sum_const,Finset.card_univ,Fintype.card_fin,nsmul_eq_mul,Nat.cast_id,full,Nat.one_shiftLeft]
    exact Nat.mul_le_mul_left _ (Nat.sub_le _ _)
  have ended := (Loop.run_ends (Settling f) (fun masks => ∑ i, masks i) pdom_round _ _ start bounded).2
  unfold pdomRound at ended
  dsimp only at ended
  split at ended
  · rename_i fixed
    have once : (List.finRange f.count).reverse.Nodup := nodup_reverse.mpr (nodup_finRange _)
    exact pdomUpdates_fixed _ once fixed i (by simp) reaches
  · cases ended

def PostDominates (f : Function) (n i : Fin f.count) : Prop := (f.pdom i).testBit n = true

theorem postDominates_iff (reaches : f.reachesExit i = true) (n : Fin f.count) :
    PostDominates f n i ↔ n = i ∨ f.isExit i = false ∧ ∀ s ∈ f.succ i, f.reachesExit s = true → PostDominates f n s :=
    by
  unfold PostDominates
  rw [← pdom_eq i reaches,testBit_pdomValue,Bool.or_eq_true,Bool.and_eq_true,decide_eq_true_eq,all_eq_true,or_comm]
  apply or_congr Fin.ext_iff.symm
  apply and_congr
  · cases exit : f.isExit i with
    | false =>
      have low : n.val < f.count + 1 := by omega
      simp [testBit_full,low]
    | true =>
      have low : n.val ≠ f.count := by omega
      simp [testBit_exitBit,low]
  · simp [live]

theorem Runs.reachesExit (runs : Runs f v path) : f.reachesExit v = true := (reachesExit_iff v).mpr ⟨path,runs⟩

theorem Runs.passes (runs : Runs f v path) (dominates : PostDominates f n v) : n ∈ path := by
  induction runs with
  | exit exit =>
    rcases (postDominates_iff (Runs.exit exit).reachesExit n).mp dominates with rfl | ⟨inner,_⟩
    · simp
    · rw [exit] at inner
      cases inner
  | step edge rest ih =>
    rcases (postDominates_iff (Runs.step edge rest).reachesExit n).mp dominates with rfl | ⟨_,all⟩
    · simp
    · exact mem_cons_of_mem _ (ih (all _ edge rest.reachesExit))

theorem mem_controlParents : (b,s) ∈ f.controlParents n ↔
    2 ≤ (f.succ b).length ∧ f.reachesExit b = true ∧ s ∈ f.succ b ∧ f.reachesExit s = true ∧ PostDominates f n s ∧
      (n = b ∨ ¬ PostDominates f n b) := by
  unfold controlParents
  rw [mem_flatMap]
  constructor
  · rintro ⟨branch,_,member⟩
    split at member
    · cases member
    · rename_i branching
      rw [not_or,Nat.not_lt,not_not] at branching
      obtain ⟨son,inside,same⟩ := mem_map.mp member
      cases same
      obtain ⟨edge,both⟩ := mem_filter.mp inside
      rw [Bool.and_eq_true] at both
      have apart := both.2
      simp only [dependent,Bool.and_eq_true,Bool.not_eq_true',Bool.and_eq_false_iff,bne_eq_false_iff_eq] at apart
      refine ⟨branching.1,branching.2,edge,both.1,apart.1,?_⟩
      rcases apart.2 with outside | here
      · exact .inr (by simp [PostDominates,outside])
      · exact .inl here
  · rintro ⟨branching,reaches,edge,reachesSon,dominates,apart⟩
    refine ⟨b,mem_finRange b,?_⟩
    have splits : ¬ (f.succ b).length < 2 := Nat.not_lt.mpr branching
    rw [if_neg (by simp [reaches,splits])]
    refine mem_map.mpr ⟨s,mem_filter.mpr ⟨edge,?_⟩,rfl⟩
    unfold PostDominates at dominates apart
    rcases apart with here | outside
    · subst here
      simp [reachesSon,dependent,dominates]
    · simp [reachesSon,dependent,dominates,Bool.not_eq_true _ ▸ outside]

theorem postDominates_self (reaches : f.reachesExit i = true) : PostDominates f i i :=
  (postDominates_iff reaches i).mpr (.inl rfl)

theorem Runs.head (runs : Runs f v path) : ∃ rest, path = v :: rest := by
  cases runs with
  | exit => exact ⟨[],rfl⟩
  | step => exact ⟨_,rfl⟩

theorem Runs.reaches (runs : Runs f v path) (member : n ∈ path) : Relation.ReflTransGen (Edge f) v n := by
  induction runs with
  | exit => rw [mem_singleton.mp member]
  | step edge _ ih =>
    rcases mem_cons.mp member with rfl | later
    · exact .refl
    · exact .head edge (ih later)

theorem Runs.from (runs : Runs f v path) (member : n ∈ path) : ∃ rest, Runs f n rest := by
  induction runs with
  | exit exit =>
    rw [mem_singleton.mp member]
    exact ⟨_,.exit exit⟩
  | step edge rest ih =>
    rcases mem_cons.mp member with rfl | later
    · exact ⟨_,.step edge rest⟩
    · exact ih later

def Steps (path : List (Fin f.count)) (b s : Fin f.count) : Prop := (b,s) ∈ path.zip path.tail

instance (path : List (Fin f.count)) (b s : Fin f.count) : Decidable (Steps path b s) :=
  inferInstanceAs (Decidable (_ ∈ _))

theorem steps_append (before : List (Fin f.count)) (step : Steps path b s) : Steps (before ++ path) b s := by
  induction before with
  | nil => exact step
  | cons first rest ih =>
    cases shape : rest ++ path with
    | nil =>
      rw [shape] at ih
      cases ih
    | cons next more =>
      rw [shape] at ih
      simp only [cons_append,shape]
      exact mem_cons_of_mem _ ih

theorem Runs.steps_cons (runs : Runs f w rest) : Steps (v :: rest) b s ↔ (b = v ∧ s = w) ∨ Steps rest b s := by
  obtain ⟨more,rfl⟩ := runs.head
  simp [Steps]

theorem Runs.step_from (runs : Runs f v path) (step : Steps path b s) : s ∈ f.succ b ∧ b ∈ path ∧
    ∃ rest, Runs f s rest ∧ rest ⊆ path := by
  induction runs with
  | exit => simp [Steps] at step
  | step edge rest ih =>
    rcases rest.steps_cons.mp step with ⟨rfl,rfl⟩ | later
    · exact ⟨edge,by simp,_,rest,subset_cons_self _ _⟩
    · obtain ⟨next,member,tail,runs,inside⟩ := ih later
      exact ⟨next,mem_cons_of_mem _ member,tail,runs,fun x inTail => mem_cons_of_mem _ (inside inTail)⟩

theorem Runs.leaves (runs : Runs f v path) (member : b ∈ path) (inner : f.isExit b = false) :
    ∃ s ∈ f.succ b, Steps path b s := by
  induction runs with
  | exit exit =>
    rw [mem_singleton.mp member,exit] at inner
    cases inner
  | step edge rest ih =>
    rcases mem_cons.mp member with rfl | later
    · exact ⟨_,edge,rest.steps_cons.mpr (.inl ⟨rfl,rfl⟩)⟩
    · obtain ⟨s,next,step⟩ := ih later
      exact ⟨s,next,rest.steps_cons.mpr (.inr step)⟩

theorem Runs.twice (runs : Runs f v path) (first : Steps path b s) (second : Steps path b s')
    (differs : s ≠ s') : Relation.TransGen (Edge f) b b := by
  induction runs with
  | exit => simp [Steps] at first
  | step edge rest ih =>
    rcases rest.steps_cons.mp first with ⟨rfl,rfl⟩ | later
    · rcases rest.steps_cons.mp second with ⟨_,rfl⟩ | again
      · exact absurd rfl differs
      · exact .head' edge (rest.reaches (rest.step_from again).2.1)
    · rcases rest.steps_cons.mp second with ⟨rfl,rfl⟩ | again
      · exact .head' edge (rest.reaches (rest.step_from later).2.1)
      · exact ih later again

-- A run that passes a node it need not pass goes over a branch edge.
theorem Runs.turns (runs : Runs f v path) (member : n ∈ path) (free : ¬ PostDominates f n v) :
    ∃ b s, Steps path b s ∧ (b,s) ∈ f.controlParents n := by
  induction runs with
  | exit exit =>
    rw [mem_singleton.mp member] at free
    exact absurd (postDominates_self (Runs.exit exit).reachesExit) free
  | @step v w rest edge runs ih =>
    have reaches := (Runs.step edge runs).reachesExit
    have inside : n ∈ rest := by
      rcases mem_cons.mp member with rfl | later
      · exact absurd (postDominates_self reaches) free
      · exact later
    by_cases dominates : PostDominates f n w
    · refine ⟨v,w,runs.steps_cons.mpr (.inl ⟨rfl,rfl⟩),mem_controlParents.mpr
        ⟨?_,reaches,edge,runs.reachesExit,dominates,.inr free⟩⟩
      -- With one son only, what dominates the son dominates the node.
      by_contra single
      have only : ∀ s ∈ f.succ v, s = w := by
        intro s member
        match shape : f.succ v,single with
        | [],_ => rw [shape] at edge; cases edge
        | [x],_ =>
          rw [shape] at member edge
          rw [mem_singleton.mp member,mem_singleton.mp edge]
        | _ :: _ :: _,short => simp at short
      apply free
      apply (postDominates_iff reaches n).mpr (.inr ⟨?_,fun s member _ => only s member ▸ dominates⟩)
      rw [← Bool.not_eq_true]
      intro exit
      rw [isExit_succ exit] at edge
      cases edge
    · obtain ⟨b,s,step,parent⟩ := ih inside dominates
      exact ⟨b,s,runs.steps_cons.mpr (.inr step),parent⟩

theorem Runs.back (runs : Runs f w path) (way : Relation.ReflTransGen (Edge f) v w) : ∃ before, Runs f v
    (before ++ path) := by
  induction way using Relation.ReflTransGen.head_induction_on with
  | refl => exact ⟨[],runs⟩
  | @head a _ edge _ ih =>
    obtain ⟨before,onward⟩ := ih
    exact ⟨a :: before,.step edge onward⟩

theorem postDominates_between (path : Relation.ReflTransGen (Edge f) v w) (reaches : f.reachesExit w = true)
    (bound : PostDominates f n v) : PostDominates f n w ∨ Relation.ReflTransGen (Edge f) n w := by
  induction path using Relation.ReflTransGen.head_induction_on with
  | refl => exact .inl bound
  | @head a c edge rest ih =>
    obtain ⟨tail,runs⟩ := (reachesExit_iff w).mp reaches
    obtain ⟨before,onward⟩ := runs.back rest
    rcases (postDominates_iff (Runs.step edge onward).reachesExit n).mp bound with rfl | ⟨_,all⟩
    · exact .inr (.head edge rest)
    · exact ih (all c edge onward.reachesExit)

theorem controlParent_cycle (reachable : Relation.ReflTransGen (Edge f) entry b)
    (bound : PostDominates f n entry) (parent : (b,s) ∈ f.controlParents n) : Relation.TransGen (Edge f) b b := by
  obtain ⟨_,reaches,edge,reachesSon,dominates,apart⟩ := mem_controlParents.mp parent
  obtain ⟨path,runs⟩ := (reachesExit_iff s).mp reachesSon
  have forth : Relation.TransGen (Edge f) b n := .head' edge (runs.reaches (runs.passes dominates))
  rcases apart with rfl | free
  · exact forth
  · rcases postDominates_between reachable reaches bound with inside | back
    · exact absurd inside free
    · exact forth.trans_left back

-- A mask holds what every run to an exit passes.
def Passing (f : Function) (masks : Fin f.count → Nat) : Prop :=
  ∀ i n : Fin f.count, (∀ path, Runs f i path → n ∈ path) → (masks i).testBit n = true

theorem pdomUpdate_passing (passing : Passing f masks) (i : Fin f.count) : Passing f (f.pdomUpdate masks i) := by
  unfold pdomUpdate
  split
  · intro j n all
    by_cases here : j = i
    · subst here
      rw [Function.update_self,testBit_pdomValue,Bool.or_eq_true,decide_eq_true_eq,Bool.and_eq_true,
        all_eq_true,or_iff_not_imp_right]
      intro apart
      have beyond : ∀ path, Runs f j (j :: path) → n ∈ path := fun _ runs =>
        (mem_cons.mp (all _ runs)).resolve_left fun same => apart (by rw [same])
      have inner : f.isExit j = false := by
        by_contra exit
        cases beyond [] (.exit (by simpa using exit))
      refine ⟨by grind [testBit_full],?_⟩
      intro s member
      exact passing s n fun path runs => beyond path (.step (mem_filter.mp member).1 runs)
    · rw [Function.update_of_ne here]
      exact passing j n all
  · exact passing

theorem pdom_passing : Passing f f.pdom := by
  apply Loop.run_keeps (Passing f)
  · intro masks masks' passing moved
    unfold pdomRound at moved
    dsimp only at moved
    split at moved
    · cases moved
    · cases moved
      exact foldlRecOn _ _ passing fun _ kept i _ => pdomUpdate_passing kept i
  · intro i n _
    grind [testBit_full]

theorem postDominates_iff_passes : PostDominates f n i ↔ ∀ path, Runs f i path → n ∈ path :=
  ⟨fun dominates _ runs => runs.passes dominates,pdom_passing i n⟩

theorem control_parents_exact : (b,s) ∈ f.controlParents n ↔ 2 ≤ (f.succ b).length ∧ s ∈ f.succ b ∧
    (∃ path, Runs f s path) ∧
    (∀ path, Runs f s path → n ∈ path) ∧ (n = b ∨ ∃ path, Runs f b path ∧ n ∉ path) := by
  rw [mem_controlParents,postDominates_iff_passes,postDominates_iff_passes,reachesExit_iff,reachesExit_iff]
  push Not
  constructor
  · rintro ⟨branching,_,edge,rest⟩
    exact ⟨branching,edge,rest⟩
  · rintro ⟨branching,edge,⟨path,runs⟩,rest⟩
    exact ⟨branching,⟨_,.step edge runs⟩,edge,⟨path,runs⟩,rest⟩

end Function

end Psat.Predicates
