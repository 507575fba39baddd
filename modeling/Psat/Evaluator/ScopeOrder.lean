import Psat.Evaluator.WriterScopes

namespace Psat.Evaluator
open Psat.Capability Psat.General.Memo List

def unbindSource (source : String) : String := if source = "parameter" then "computed" else source

def Leaf.unbind (leaf : Leaf) : Leaf :=
  {leaf with
     operands:=leaf.operands.map unbindSource
     absorbedOperands:=leaf.absorbedOperands.map unbindSource
     setDescriptor:=leaf.setDescriptor.map fun descriptor =>
       {descriptor with keySources:=descriptor.keySources.map unbindSource}}

mutual

def unbindWriterParameters : PredicateTree → PredicateTree
  | .leaf leaf => .leaf (leaf.map Leaf.unbind)
  | .and children => .and (unbindAll children)
  | .or children => .or (unbindAll children)
  | .other op children => .other op (unbindAll children)

def unbindAll : List PredicateTree → List PredicateTree
  | [] => []
  | child :: rest => unbindWriterParameters child :: unbindAll rest

end

-- One function's pass.
structure EffectScopes where
  entry : Context
  framed : String → Context
  writerScopeIds : Leaf → Option (List ScopeId)
  predicates : List (ScopeId × Option PredicateTree)

structure Site where
  id : ScopeId
  predicate : Option (Option PredicateTree)

namespace EffectScopes
variable (scopes : EffectScopes)

-- A writer's predicate is read in the root frame of its own function.
def child (scope : ScopeId) : Context :=
  {scopes.framed ((scope.splitOn "/").headD "") with contractAddress:=scopes.entry.contractAddress}

def fallback : Held where
  cap := bareCheck scopes.entry.contractAddress
    ["caller_tainted_authority_unresolved","state_dependency_unresolved"] none

def joinWriters : List Held → Held
  | [] => scopes.fallback
  | capabilities => foldHeld Held.union capabilities

def readWriter (scope : ScopeId) : Option (Reading Held) :=
  (List.lookup scope scopes.predicates).map fun predicate =>
      read scopes.writerScopeIds (scopes.child scope) (predicate.map unbindWriterParameters)

def stackLimit : Nat := 8

def graph : Dependencies ScopeId Held where
  node := scopes.readWriter
  join := scopes.joinWriters
  fallback := scopes.fallback
  keeps capability := decide (capability.cap.kind ≠ .externalCheckOnly)
  mark capability := {capability with held:=true}
  cap := stackLimit

abbrev ScopePass := Pass ScopeId Held

def resolveStateAuthority (ids : List ScopeId) (pass : ScopePass) : Held × ScopePass :=
  resolve scopes.graph (stackLimit + 1) [] ids pass

def resolveSite (site : Site) (pass : ScopePass) : Held × ScopePass :=
  match site.predicate with
  | none => ({cap:=.unsupported "missing_effect_predicate"},pass)
  | some predicate => start scopes.graph (read scopes.writerScopeIds scopes.entry predicate) pass

end EffectScopes

-- A question of a pass: an effect site, or a state variable's writers.
inductive Request
  | site (site : Site)
  | state (ids : List ScopeId)

namespace EffectScopes
variable (scopes : EffectScopes)

def answer (pass : ScopePass) : Request → Held × ScopePass
  | .site site => scopes.resolveSite site pass
  | .state ids => scopes.resolveStateAuthority ids pass

def answers (pass : ScopePass) : List Request → List (Request × CapabilityExpr)
  | [] => []
  | request :: rest =>
    (request,(scopes.answer pass request).1.cap) :: answers (scopes.answer pass request).2 rest

def reading : Request → Option (Reading Held)
  | .site site => site.predicate.map (read scopes.writerScopeIds scopes.entry)
  | .state ids => some (.ask ids .answer)

-- On the way to the answer, `len(stack) >= 8` refuses no scope that the other
-- two checks let through, and no step is written on a memoised object.
def fitting (pass : ScopePass) (request : Request) : Bool :=
  (scopes.reading request).all fun computation => startFits scopes.graph computation pass

def allFitting (pass : ScopePass) : List Request → Bool
  | [] => true
  | request :: rest => scopes.fitting pass request && allFitting (scopes.answer pass request).2 rest

-- The same scopes under a cap that leaves room for all of them.
def wide : Dependencies ScopeId Held := {scopes.graph with cap:=stackLimit + scopes.predicates.length}

variable {scopes}

theorem wide_shallow : Shallow scopes.wide := by
  intro keys nodup defined
  have inside : keys ⊆ scopes.predicates.map Prod.fst := by
    intro scope member
    by_contra missing
    refine defined scope member ?_
    change (List.lookup scope scopes.predicates).map _ = none
    rw [(General.Dict.lookup_eq_none scope scopes.predicates).mpr missing]
    rfl
  have short := (subperm_of_subset nodup inside).length_le
  rw [length_map] at short
  exact short.trans (Nat.le_add_left _ _)

theorem answer_wide (within : scopes.fitting sweep request = true) :
    scopes.answer sweep request = (scopes.reading request).elim ({cap:=.unsupported "missing_effect_predicate"},sweep)
      fun computation => start scopes.wide computation sweep := by
  have room : scopes.graph.cap ≤ stackLimit + scopes.predicates.length := Nat.le_add_right _ _
  cases request with
  | state ids => exact start_wide room (.ask ids .answer) sweep within
  | site site =>
    obtain ⟨id,predicate⟩ := site
    cases predicate with
    | none => rfl
    | some predicate => exact start_wide room _ sweep within

theorem answer_valid (within : scopes.fitting sweep request = true) (valid : Valid scopes.wide sweep) :
    Valid scopes.wide (scopes.answer sweep request).2 := by
  rw [answer_wide within]
  cases scopes.reading request with
  | none => exact valid
  | some computation => exact start_valid computation sweep valid

theorem answer_same (within : scopes.fitting sweep request = true) (valid : Valid scopes.wide sweep)
    (otherWithin : scopes.fitting other request = true) (otherValid : Valid scopes.wide other) :
    (scopes.answer sweep request).1 = (scopes.answer other request).1 := by
  rw [answer_wide within,answer_wide otherWithin]
  cases scopes.reading request with
  | none => rfl
  | some computation => exact start_same wide_shallow computation sweep other valid otherValid

theorem answers_valid (valid : Valid scopes.wide sweep) (within : scopes.allFitting sweep requests = true)
    (answered : (request,capability) ∈ scopes.answers sweep requests) :
    ∃ reached, Valid scopes.wide reached ∧ scopes.fitting reached request = true ∧
      capability = (scopes.answer reached request).1.cap := by
  induction requests generalizing sweep with
  | nil => cases answered
  | cons first rest ih =>
    rw [allFitting,Bool.and_eq_true] at within
    rcases mem_cons.mp answered with here | later
    · cases here
      exact ⟨sweep,valid,within.1,rfl⟩
    · exact ih (answer_valid within.1 valid) within.2 later

theorem scope_answers_ordered (scopes : EffectScopes) (requests others : List Request)
    (within : scopes.allFitting {} requests = true) (otherWithin : scopes.allFitting {} others = true)
    (request : Request) (capability other : CapabilityExpr)
    (answered : (request,capability) ∈ scopes.answers {} requests)
    (again : (request,other) ∈ scopes.answers {} others) : capability = other := by
  obtain ⟨first,valid,fits,rfl⟩ := answers_valid Valid.start within answered
  obtain ⟨second,otherValid,otherFits,rfl⟩ := answers_valid Valid.start otherWithin again
  rw [answer_same fits valid otherFits otherValid]

-- A variable whose writer's predicate rests on the scopes given as its operands.
def relay (ids : List ScopeId) : PredicateTree := .leaf (some {kind:=.authorization,operands:=ids})

def owned : PredicateTree := .leaf (some {kind:=.membership})

-- A branch that the block rules out.
def closedBranch : PredicateTree := .leaf (some {kind:=.comparison,basis:=[reachConditionBasis],reachRead:=true})

def fixedAnswers : Context :=
  {Context.silent with authority:=fun _ => .finiteSet ["0xa"],readReach:=fun _ => {holds:=some false}}

def relayScopes (predicates : List (ScopeId × Option PredicateTree)) : EffectScopes where
  entry := fixedAnswers
  framed _ := fixedAnswers
  writerScopeIds leaf := if leaf.operands.isEmpty then none else some leaf.operands
  predicates := predicates

-- Two variables whose writers wait on each other, one whose writer has an owner
-- or a closed branch, and one that rests on it.
def ringScopes : EffectScopes :=
  relayScopes [("pause()/1",relay ["unpause()/1","own()/1"]),("unpause()/1",relay ["pause()/1"]),
    ("own()/1",some (.or [owned,closedBranch])),("sweep()/1",some (.and [owned,relay ["own()/1"]]))]

theorem ring_answers_ordered :
    ringScopes.allFitting {} [.state ["pause()/1"],.state ["sweep()/1"],.state ["own()/1"]] = true ∧
    ringScopes.allFitting {} [.state ["own()/1"],.state ["sweep()/1"]] = true ∧
    ∀ (capability other : CapabilityExpr),
      (.state ["sweep()/1"],capability) ∈
        ringScopes.answers {} [.state ["pause()/1"],.state ["sweep()/1"],.state ["own()/1"]] →
      (.state ["sweep()/1"],other) ∈ ringScopes.answers {} [.state ["own()/1"],.state ["sweep()/1"]] →
      capability = other := by
  refine ⟨by decide +kernel,by decide +kernel,fun capability other => ?_⟩
  exact scope_answers_ordered ringScopes _ _ (by decide +kernel) (by decide +kernel) _ capability other

def rowScopes : EffectScopes :=
  relayScopes [("a()/1",relay ["b()/1"]),("b()/1",relay ["c()/1"]),("c()/1",relay ["d()/1"]),
    ("d()/1",relay ["e()/1"]),("e()/1",relay ["f()/1"]),("f()/1",relay ["g()/1"]),("g()/1",relay ["h()/1"]),
    ("h()/1",relay ["i()/1"]),("i()/1",some owned)]

-- Nine variables in a row: the outermost is refused first, and answered after the next one.
theorem row_answers_differ :
    (rowScopes.answers {} [.state ["a()/1"],.state ["b()/1"]]).map (fun entry => entry.2.kind) =
      [.externalCheckOnly,.finiteSet] ∧
    (rowScopes.answers {} [.state ["b()/1"],.state ["a()/1"]]).map (fun entry => entry.2.kind) =
      [.finiteSet,.finiteSet] := by
  decide +kernel

end EffectScopes

end Psat.Evaluator
