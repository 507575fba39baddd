import Psat.Evaluator.Trees
import Psat.General.Dict
import Psat.General.Paired

namespace Psat.Evaluator
open Psat.General List

abbrev Assignment : Type := String → String

def Sends (sent : Assignment) (calldata : List (String × String)) : Prop := ∀ entry ∈ calldata, sent entry.1 = entry.2

-- One entry of `calldata.setdefault(name, value) != value`.
def sendEntry (calldata : List (String × String)) (entry : String × String) : Option (List (String × String)) :=
  match lookup entry.1 calldata with
  | none => some (calldata ++ [entry])
  | some value => if value = entry.2 then some calldata else none

theorem joinCalldata_eq (truths : List ReachTruth) :
    joinCalldata truths = (truths.flatMap ReachTruth.calldata).foldlM sendEntry [] :=
  rfl

section
variable (stated : Option Leaf → Assignment → Prop)

inductive Holds (sent : Assignment) : PredicateTree → Prop
  | leaf {leaf : Option Leaf} (holds : stated leaf sent) : Holds sent (.leaf leaf)
  | and {children : List PredicateTree} (all : ∀ child ∈ children, Holds sent child) : Holds sent (.and children)
  | or {children : List PredicateTree} {child : PredicateTree} (member : child ∈ children) (holds : Holds sent child) :
    Holds sent (.or children)
  | other {op : String} {children : List PredicateTree} {child : PredicateTree} (member : child ∈ children)
    (holds : Holds sent child) :
    Holds sent (.other op children)

-- A verdict is right for the calldata it was decided on.
structure Decides (tree : PredicateTree) (truth : ReachTruth) : Prop where
  once : (truth.calldata.map Prod.fst).Nodup
  yes : truth.holds = some true → ∀ sent, Sends sent truth.calldata → Holds stated sent tree
  no : truth.holds = some false → ∀ sent, ¬ Holds stated sent tree

variable {stated}

theorem undecided (unread : truth.holds = none) (nothing : truth.calldata = []) : Decides stated tree truth := by
  refine ⟨?_,?_,?_⟩ <;> simp [unread,nothing]

variable {entries calldata joined sofar : List (String × String)}

theorem sendEntry_spec (once : (calldata.map Prod.fst).Nodup) (met : sendEntry calldata first = some sofar) :
    (sofar.map Prod.fst).Nodup ∧ ∀ entry, entry ∈ calldata ∨ entry = first → entry ∈ sofar := by
  unfold sendEntry at met
  split at met
  · rename_i absent
    cases met
    refine ⟨?_,fun entry either => mem_append.mpr (either.imp_right mem_singleton.mpr)⟩
    rw [map_append,map_singleton,nodup_append]
    refine ⟨once,nodup_singleton _,fun key member other is same => ?_⟩
    obtain ⟨entry,inside,key⟩ := mem_map.mp member
    have differs := lookup_eq_none_iff.mp absent entry inside
    rw [mem_singleton.mp is] at same
    simp [key,same] at differs
  · rename_i value found
    split at met
    · rename_i same
      cases met
      refine ⟨once,fun entry either => either.elim id fun is => ?_⟩
      rw [is,show first = (first.1,value) by rw [same]]
      exact Dict.mem_of_lookup found
    · cases met

theorem sent_together (once : (calldata.map Prod.fst).Nodup) (met : entries.foldlM sendEntry calldata = some joined) :
    (joined.map Prod.fst).Nodup ∧ ∀ entry, entry ∈ calldata ∨ entry ∈ entries → entry ∈ joined := by
  induction entries generalizing calldata with
  | nil =>
    cases met
    exact ⟨once,fun entry either => either.resolve_right not_mem_nil⟩
  | cons first rest ih =>
    obtain ⟨sofar,step,met⟩ := Option.bind_eq_some_iff.mp met
    obtain ⟨distinct,added⟩ := sendEntry_spec once step
    obtain ⟨distinct,all⟩ := ih distinct met
    refine ⟨distinct,fun entry either => all entry ?_⟩
    rcases either with old | listed
    · exact .inl (added entry (.inl old))
    · rcases mem_cons.mp listed with is | later
      · exact .inl (added entry (.inr is))
      · exact .inr later

variable (each : Forall₂ (Decides stated) children truths)
include each

theorem conjoined : Decides stated (.and children) (combineReach false truths) := by
  unfold combineReach
  split
  · rename_i truth found
    obtain ⟨child,inside,decides⟩ := Paired.right_partner each (mem_of_find?_eq_some found)
    have refuted : truth.holds = some false := by simpa using find?_some found
    refine ⟨decides.once,by simp [refuted],fun _ sent holds => ?_⟩
    cases holds with
    | and all => exact decides.no refuted sent (all child inside)
  · rename_i none
    split
    · exact undecided rfl rfl
    · rename_i read
      rw [if_neg Bool.false_ne_true]
      split
      · exact undecided rfl rfl
      · rename_i calldata joined
        obtain ⟨once,all⟩ := @sent_together _ [] _ nodup_nil (joinCalldata_eq truths ▸ joined)
        refine ⟨once,fun _ sent sends => .and fun child inside => ?_,by simp⟩
        obtain ⟨truth,member,decides⟩ := Paired.left_partner each inside
        refine decides.yes ?_ sent fun entry listed => sends entry
          (all entry (.inr (mem_flatMap.mpr ⟨truth,member,listed⟩)))
        have decided := find?_eq_none.mp read truth member
        cases verdict : truth.holds with
        | none => simp [verdict] at decided
        | some value => cases value <;> simp_all

theorem disjoined (tree : PredicateTree)
    (some_ : ∀ sent, Holds stated sent tree ↔ ∃ child ∈ children, Holds stated sent child) :
    Decides stated tree (combineReach true truths) := by
  unfold combineReach
  split
  · rename_i truth found
    obtain ⟨child,inside,decides⟩ := Paired.right_partner each (mem_of_find?_eq_some found)
    have held : truth.holds = some true := by simpa using find?_some found
    exact ⟨decides.once,fun _ sent sends => (some_ sent).mpr ⟨child,inside,decides.yes held sent sends⟩,by simp [held]⟩
  · rename_i none
    split
    · exact undecided rfl rfl
    · rename_i read
      refine ⟨nodup_nil,by simp,fun _ sent holds => ?_⟩
      obtain ⟨child,inside,holds⟩ := (some_ sent).mp holds
      obtain ⟨truth,member,decides⟩ := Paired.left_partner each inside
      refine decides.no ?_ sent holds
      have decided := find?_eq_none.mp read truth member
      cases verdict : truth.holds with
      | none => simp [verdict] at decided
      | some value => cases value <;> simp_all

end

theorem holds_or : Holds stated sent (.or children) ↔ ∃ child ∈ children, Holds stated sent child := by
  constructor
  · intro holds
    cases holds with
    | or member holds => exact ⟨_,member,holds⟩
  · rintro ⟨child,member,holds⟩
    exact .or member holds

theorem holds_other : Holds stated sent (.other op children) ↔ ∃ child ∈ children, Holds stated sent child := by
  constructor
  · intro holds
    cases holds with
    | other member holds => exact ⟨_,member,holds⟩
  · rintro ⟨child,member,holds⟩
    exact .other member holds

def LeavesRight (stated : Option Leaf → Assignment → Prop) (ctx : Context) : Prop :=
  ∀ leaf, leaf.reachRead = true → Decides stated (.leaf (some leaf)) (ctx.readReach leaf)

mutual

theorem reachTruth_decides (right : LeavesRight stated ctx) : ∀ tree, Decides stated tree (reachTruth ctx tree)
  | .leaf none => by rw [reachTruth]; exact undecided rfl rfl
  | .leaf (some leaf) => by
    rw [reachTruth]
    split
    · exact right leaf ‹_›
    · exact undecided rfl rfl
  | .and children => by rw [reachTruth]; exact conjoined (reachTruths_decide right children)
  | .or children => by rw [reachTruth]; exact disjoined (reachTruths_decide right children) _ fun _ => holds_or
  | .other _ children => by rw [reachTruth]; exact disjoined (reachTruths_decide right children) _ fun _ => holds_other

theorem reachTruths_decide (right : LeavesRight stated ctx) : ∀ children, Forall₂ (Decides stated) children
    (reachTruths ctx children)
  | [] => by rw [reachTruths]; exact .nil
  | child :: rest => by rw [reachTruths]; exact .cons (reachTruth_decides right child) (reachTruths_decide right rest)

end

-- The induction carries the conjuncts' calldata, met in one assignment.
theorem reachTruth_sound (right : LeavesRight stated ctx) (tree : PredicateTree) :
    ((reachTruth ctx tree).holds = some true → (∃ sent, Sends sent (reachTruth ctx tree).calldata) ∧
      ∀ sent, Sends sent (reachTruth ctx tree).calldata → Holds stated sent tree) ∧
    ((reachTruth ctx tree).holds = some false → ∀ sent, ¬ Holds stated sent tree) := by
  have decides := reachTruth_decides right tree
  refine ⟨fun yes => ⟨⟨fun name => (lookup name (reachTruth ctx tree).calldata).getD "",fun entry member => ?_⟩,
    decides.yes yes⟩,decides.no⟩
  have found := (Dict.mem_iff_lookup decides.once entry.1 entry.2).mp member
  simp [found]

def amountSix : Leaf := {kind:=.comparison,expression:=some "amount == 6",reachRead:=true}

def shut : Leaf := {kind:=.comparison,expression:=some "1 == 2",reachRead:=true}

def means (leaf : Option Leaf) (sent : Assignment) : Prop := leaf = some amountSix ∧ sent "amount" = "6"

def reading : Context :=
  {Context.silent with
    readReach:=fun leaf => if leaf = amountSix then {holds:=some true,calldata:=[("amount","6")]}
      else {holds:=some false}}

def sixOrShut : PredicateTree := .and [.leaf (some amountSix),.or [.leaf (some shut),.leaf (some amountSix)]]

theorem sixOrShut_holds : (reachTruth reading sixOrShut).holds = some true ∧ ∃ sent, Holds means sent sixOrShut := by
  have right : LeavesRight means reading := by
    intro leaf _
    by_cases six : leaf = amountSix
    · subst six
      exact ⟨by decide +kernel,fun _ sent sends => .leaf ⟨rfl,sends ("amount","6") (by decide +kernel)⟩,
        by simp [reading]⟩
    · refine ⟨by simp [reading,six],by simp [reading,six],fun _ sent holds => ?_⟩
      cases holds with
      | leaf holds => exact six (Option.some.inj holds.1)
  obtain ⟨⟨sent,sends⟩,holds⟩ := (reachTruth_sound right sixOrShut).1 (by decide +kernel)
  exact ⟨by decide +kernel,sent,holds sent sends⟩

end Psat.Evaluator
