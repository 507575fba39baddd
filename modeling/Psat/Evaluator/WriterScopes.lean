import Psat.Evaluator.Trees
import Psat.General.Memo

namespace Psat.Evaluator
open Psat.Capability Psat.General.Memo

abbrev ScopeId := String

-- A capability, and whether it is the very object the pass has memoised for a scope.
structure Held where
  cap : CapabilityExpr
  held : Bool := false

def Held.union (a b : Held) : Held where
  cap := Capability.union a.cap b.cap
  held := a.held && decide (a.cap.kind = .conditionalUniversal ∧ b.cap.kind = .conditionalUniversal ∧
    a.cap.subject = b.cap.subject ∧ a.cap.conditions = b.cap.conditions)

-- Without conditions to attach, the other operand is returned itself.
def Held.intersect (a b : Held) : Held where
  cap := Capability.intersect a.cap b.cap
  held :=
    if a.cap.kind = .unsupported ∨ b.cap.kind = .unsupported then false
    else if a.cap.kind = .conditionalUniversal then b.held && a.cap.conditions.isEmpty
    else if b.cap.kind = .conditionalUniversal then a.held && b.cap.conditions.isEmpty
    else false

def foldHeld (combine : Held → Held → Held) : List Held → Held
  | [] => {cap:=.unsupported "empty_branch"}
  | first :: rest => rest.foldl combine first

-- An evaluation that asks for the state authorities it meets, and notes the
-- objects it writes on.
abbrev Reading := Asking ScopeId Held

-- The scopes of the writers of the variable a state-authority leaf rests on.
def stateAuthority (writerScopeIds : Leaf → Option (List ScopeId)) (leaf : Leaf) : Option (List ScopeId) :=
  if isReadReachCondition leaf || isRecoveredSignerMembership leaf || leaf.authorityNotDetermined ||
    leaf.kind = .unsupported ||
    leaf.authorityRole.any Role.isSide then none
  else if leaf.kind = .signatureAuth || leaf.kind = .authorization then writerScopeIds leaf
  else none

section
variable (writerScopeIds : Leaf → Option (List ScopeId)) (ctx : Context)

def readLeaf (leaf : Leaf) : Reading Held :=
  match stateAuthority writerScopeIds leaf with
  | some ids => .ask ids .answer
  | none => .answer {cap:=evaluateLeaf ctx leaf}

structure Standing where
  evaluated : List Held := []
  refuted : List TraceStep := []

-- `_evaluate_or` writes the refuted steps on the joined object in place; on an
-- object that the memo holds, a later request would read them too.
def joinStanding (children : List PredicateTree) (standing : Standing) : Reading Held :=
  match standing.evaluated with
  | [] => .answer {cap:=joinAlternatives ctx children {refuted:=standing.refuted}}
  | evaluated =>
    let result := foldHeld Held.union evaluated
    .note (standing.refuted.isEmpty || !result.held)
      (.answer {result with cap:={result.cap with trace:=result.cap.trace ++ standing.refuted}})

-- `evaluateTree` with its questions in walk order.
mutual

def readTree : PredicateTree → Reading Held
  | .leaf none => .answer {cap:=.unsupported "empty_leaf"}
  | .leaf (some leaf) => readLeaf writerScopeIds ctx leaf
  | .and children =>
    if children.isEmpty then .answer {cap:=.unsupported "empty_branch"}
    else (readConjuncts (decide (1 < children.length)) children).bind fun caps => .answer (foldHeld Held.intersect caps)
  | .or children =>
    if children.isEmpty then .answer {cap:=.unsupported "empty_branch"}
    else (readAlternatives children).bind (joinStanding ctx children)
  | .other op children =>
    if children.isEmpty then .answer {cap:=.unsupported "empty_branch"}
    else (readConjuncts false children).bind fun _ => .answer {cap:=.unsupported ("unknown_op_" ++ op)}

def readConjuncts (several : Bool) : List PredicateTree → Reading (List Held)
  | [] => .answer []
  | child :: rest =>
    let first : Reading Held :=
      match (if several then sideConditionCapability ctx child else none) with
      | some cap => .answer {cap}
      | none => readTree child
    first.bind fun cap => (readConjuncts several rest).bind fun others => .answer (cap :: others)

def readAlternatives : List PredicateTree → Reading Standing
  | [] => .answer {}
  | child :: rest =>
    if isReadReachTree child then
      let truth := reachTruth ctx child
      (readAlternatives rest).bind fun others =>
          if truth.holds = some false then .answer {others with refuted:=reachStep :: others.refuted}
          else .answer {others with evaluated:={cap:=reachCapability ctx truth child} :: others.evaluated}
    else
      (readTree child).bind fun cap =>
          (readAlternatives rest).bind fun others => .answer {others with evaluated:=cap :: others.evaluated}

end

def read : Option PredicateTree → Reading Held
  | none => .answer {cap:=evaluate ctx none}
  | some tree => readTree writerScopeIds ctx tree

end

-- The context in which the state authorities are answered at once.
def Context.answering (ctx : Context) (writerScopeIds : Leaf → Option (List ScopeId))
    (answers : List ScopeId → Held) : Context :=
  {ctx with authority:=fun leaf =>
    ((stateAuthority writerScopeIds leaf).map fun ids => (answers ids).cap).getD (ctx.authority leaf)}

mutual

theorem reachTruth_answering (tree : PredicateTree) : reachTruth (ctx.answering writerScopeIds answers) tree =
    reachTruth ctx tree := by
  cases tree with
  | leaf leaf =>
    cases leaf with
    | none => rw [reachTruth,reachTruth]
    | some leaf =>
      rw [reachTruth,reachTruth]
      rfl
  | and children => rw [reachTruth,reachTruth,reachTruths_answering children]
  | or children => rw [reachTruth,reachTruth,reachTruths_answering children]
  | other op children => rw [reachTruth,reachTruth,reachTruths_answering children]

theorem reachTruths_answering (children : List PredicateTree) :
    reachTruths (ctx.answering writerScopeIds answers) children = reachTruths ctx children := by
  cases children with
  | nil => rw [reachTruths,reachTruths]
  | cons child rest => rw [reachTruths,reachTruths,reachTruth_answering child,reachTruths_answering rest]

end

mutual

theorem sideConditionsFromTree_answering (tree : PredicateTree) :
    sideConditionsFromTree (ctx.answering writerScopeIds answers) tree = sideConditionsFromTree ctx tree := by
  cases tree with
  | leaf leaf =>
    cases leaf with
    | none => rw [sideConditionsFromTree,sideConditionsFromTree]
    | some leaf =>
      rw [sideConditionsFromTree,sideConditionsFromTree]
      rfl
  | and children => rw [sideConditionsFromTree,sideConditionsFromTree,sideConditionsFromTrees_answering children]
  | or children => rw [sideConditionsFromTree,sideConditionsFromTree,sideConditionsFromTrees_answering children]
  | other op children => rw [sideConditionsFromTree,sideConditionsFromTree]

theorem sideConditionsFromTrees_answering (children : List PredicateTree) :
    sideConditionsFromTrees (ctx.answering writerScopeIds answers) children = sideConditionsFromTrees ctx children := by
  cases children with
  | nil => rw [sideConditionsFromTrees,sideConditionsFromTrees]
  | cons child rest =>
    rw [sideConditionsFromTrees,sideConditionsFromTrees,sideConditionsFromTree_answering child,
      sideConditionsFromTrees_answering rest]

end

theorem sideConditionCapability_answering :
    sideConditionCapability (ctx.answering writerScopeIds answers) tree = sideConditionCapability ctx tree := by
  unfold sideConditionCapability
  rw [sideConditionsFromTree_answering]

theorem foldl_cap {combine : Held → Held → Held} {f : CapabilityExpr → CapabilityExpr → CapabilityExpr}
    (each : ∀ a b, (combine a b).cap = f a.cap b.cap) (caps : List Held) (first : Held) :
    (caps.foldl combine first).cap = (caps.map Held.cap).foldl f first.cap := by
  induction caps generalizing first with
  | nil => rfl
  | cons cap rest ih => rw [List.foldl_cons,ih,each,List.map_cons,List.foldl_cons]

theorem foldHeld_cap {combine : Held → Held → Held} {f : CapabilityExpr → CapabilityExpr → CapabilityExpr}
    (each : ∀ a b, (combine a b).cap = f a.cap b.cap) (caps : List Held) :
    (foldHeld combine caps).cap = foldCapabilities f (caps.map Held.cap) := by
  cases caps with
  | nil => rfl
  | cons first rest => exact foldl_cap each rest first

def Standing.alternatives (standing : Standing) : Alternatives := ⟨standing.evaluated.map Held.cap,standing.refuted⟩

theorem joinStanding_answers (standing : Standing) : ((joinStanding ctx children standing).answerWith answers).cap =
    joinAlternatives (ctx.answering writerScopeIds answers) children standing.alternatives := by
  unfold joinStanding
  cases shape : standing.evaluated with
  | nil =>
    unfold Standing.alternatives joinAlternatives
    rw [shape]
    rfl
  | cons first rest =>
    have joined : (foldHeld Held.union (first :: rest)).cap = foldCapabilities union (first.cap :: rest.map Held.cap) :=
      foldHeld_cap (fun _ _ => rfl) (first :: rest)
    unfold Standing.alternatives joinAlternatives
    rw [shape,List.map_cons]
    dsimp only
    rw [← joined]
    rfl

theorem readLeaf_answers (leaf : Leaf) :
    ((readLeaf writerScopeIds ctx leaf).answerWith answers).cap =
      evaluateLeaf (ctx.answering writerScopeIds answers) leaf := by
  unfold readLeaf evaluateLeaf
  cases authority : stateAuthority writerScopeIds leaf with
  | none =>
    have same : (ctx.answering writerScopeIds answers).authority leaf = ctx.authority leaf := by
      simp only [Context.answering,authority,Option.map_none,Option.getD_none]
    rw [same]
    rfl
  | some ids =>
    have asked : (ctx.answering writerScopeIds answers).authority leaf = (answers ids).cap := by
      simp only [Context.answering,authority,Option.map_some,Option.getD_some]
    unfold stateAuthority at authority
    split at authority
    · cases authority
    · rename_i reaches
      simp only [Bool.or_eq_true,decide_eq_true_eq,not_or,Bool.not_eq_true] at reaches
      obtain ⟨⟨⟨⟨unread,unsigned⟩,determined⟩,supported⟩,central⟩ := reaches
      simp only [unread,unsigned,determined,supported,central,Bool.or_self,Bool.false_eq_true,if_false,asked]
      rfl

mutual

theorem readTree_answers (tree : PredicateTree) :
    ((readTree writerScopeIds ctx tree).answerWith answers).cap =
      evaluateTree (ctx.answering writerScopeIds answers) tree := by
  cases tree with
  | leaf leaf =>
    cases leaf with
    | none =>
      rw [readTree,evaluateTree]
      rfl
    | some leaf =>
      rw [readTree,evaluateTree]
      exact readLeaf_answers leaf
  | and children =>
    rw [readTree,evaluateTree]
    split
    · rfl
    · rw [Asking.answerWith_bind,← readConjuncts_answers]
      exact foldHeld_cap (fun _ _ => rfl) _
  | or children =>
    rw [readTree,evaluateTree]
    split
    · rfl
    · rw [Asking.answerWith_bind,← readAlternatives_answers]
      exact joinStanding_answers _
  | other op children =>
    rw [readTree,evaluateTree]
    split
    · rfl
    · rw [Asking.answerWith_bind]
      rfl

theorem readConjuncts_answers (several : Bool) (children : List PredicateTree) :
    ((readConjuncts writerScopeIds ctx several children).answerWith answers).map Held.cap =
      evaluateConjuncts (ctx.answering writerScopeIds answers) several children := by
  cases children with
  | nil =>
    rw [readConjuncts,evaluateConjuncts]
    rfl
  | cons child rest =>
    rw [readConjuncts,evaluateConjuncts,sideConditionCapability_answering,← readTree_answers child,
      ← readConjuncts_answers several rest]
    simp only [Asking.answerWith_bind]
    cases (if several = true then sideConditionCapability ctx child else none) <;> rfl

theorem readAlternatives_answers (children : List PredicateTree) :
    ((readAlternatives writerScopeIds ctx children).answerWith answers).alternatives = evaluateAlternatives
      (ctx.answering writerScopeIds answers) children := by
  cases children with
  | nil =>
    rw [readAlternatives,evaluateAlternatives]
    rfl
  | cons child rest =>
    rw [readAlternatives,evaluateAlternatives,reachTruth_answering,← readTree_answers child,
      ← readAlternatives_answers rest]
    by_cases reach : isReadReachTree child
    · simp only [reach,if_true,Asking.answerWith_bind]
      split <;> rfl
    · simp only [reach,Bool.false_eq_true,if_false,Asking.answerWith_bind]
      rfl

end

theorem read_evaluates (tree : Option PredicateTree) : ((read writerScopeIds ctx tree).answerWith answers).cap =
    evaluate (ctx.answering writerScopeIds answers) tree := by
  cases tree with
  | none => rfl
  | some tree => exact readTree_answers tree

end Psat.Evaluator
