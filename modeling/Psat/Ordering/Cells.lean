import Psat.Ordering.Machine

namespace Psat.Ordering
open List

-- A key of the calldata or the sender.
def KeyKind.Is (inputs : Inputs) : KeyKind → Nat → Prop
  | .param index,value => value = inputs.calldata index
  | .msgSender,value => value = inputs.sender
  | .indeterminate,_ => True

inductive StepMatches (inputs : Inputs) : PathStep → CellStep → Prop
  | key {kind : KeyKind} {value : Nat} : kind.Is inputs value → StepMatches inputs (.index kind) (.key value)
  | member {name : String} : StepMatches inputs (.member name) (.member name)

def Cell.Matches (inputs : Inputs) (cell : Cell) (path : AccessPath) : Prop :=
  cell.base = path.1 ∧ List.Forall₂ (StepMatches inputs) path.2 cell.steps

-- The parameters hold what the walk takes them for.
def Bound (inputs : Inputs) (bindings : Bindings) (env : Env) : Prop :=
  ∀ id kind, bindings.lookup id = some kind → kind.Is inputs (env.locals id)

-- The references taken so far point where the walk says they do.
def Taken (inputs : Inputs) (scope : Scope) (env : Env) : Prop :=
  ∀ id referent fuel path, env.references id = some referent → scope.resolveAccessPath fuel
    (.reference id) = some path →
    ∃ cell, referent = .storage cell ∧ cell.Matches inputs path

theorem keyStep_is (bound : Bound inputs bindings env) (evaluates : env.Evaluates inputs.sender value key) :
    (keyStep bindings value).Is inputs key := by
  cases value with
  | localVar id =>
    subst evaluates
    simp only [keyStep]
    cases known : bindings.lookup id with
    | none => trivial
    | some kind => exact bound id kind known
  | solidity name =>
    simp only [keyStep]
    split
    · rename_i same
      exact evaluates same
    · trivial
  | _ => trivial

theorem Taken.points (taken : Taken inputs scope env) (points : env.referent value = some referent)
    (resolved : scope.resolveAccessPath fuel value = some path) : ∃ cell, referent = .storage cell ∧
    cell.Matches inputs path := by
  cases fuel with
  | zero => cases resolved
  | succ fuel =>
    cases value with
    | state canonical =>
      simp only [Scope.resolveAccessPath] at resolved
      split at resolved
      · cases resolved
      · cases resolved
        cases points
        exact ⟨_,rfl,rfl,.nil⟩
    | reference id => exact taken id referent (fuel + 1) path points resolved
    | _ => cases resolved

theorem Cell.Matches.extend {cell : Cell} (found : cell.Matches inputs path)
    (step : StepMatches inputs pathStep cellStep) :
    Cell.Matches inputs {cell with steps:=cell.steps ++ [cellStep]} (path.1,path.2 ++ [pathStep]) :=
  ⟨found.1,rel_append found.2 (.cons step .nil)⟩

theorem refDef_eq (scope : Scope) {id : Nat}
    (once : ∀ ir ∈ scope.code.irs, ∀ other ∈ scope.code.irs, ir.isAccess → other.isAccess →
    ir.lvalue = other.lvalue → ir = other) (listed : ir ∈ scope.code.irs) (access : ir.isAccess)
    (takes : ir.lvalue = some (.reference id)) : scope.refDef id = some ir := by
  unfold Scope.refDef
  cases found : scope.code.irs.find? fun ir => ir.isAccess && decide (ir.lvalue = some (.reference id)) with
  | none =>
    have passed := find?_eq_none.mp found ir listed
    simp [access,takes] at passed
  | some other =>
    have passed := find?_some found
    simp only [Bool.and_eq_true,decide_eq_true_eq] at passed
    rw [once ir listed other (mem_of_find?_eq_some found) access passed.1 (takes.trans passed.2.symm)]

theorem Taken.access {id : Nat} (taken : Taken inputs scope env)
    (takes : ∀ fuel, scope.resolveAccessPath (fuel + 1) (.reference id) =
      (scope.resolveAccessPath fuel left).map fun outer => (outer.1,outer.2 ++ [pathStep]))
    (points : env.referent left = some referent) (step : StepMatches inputs pathStep cellStep) :
    Taken inputs scope
      {env with references:=Function.update env.references id (some (referent.extend cellStep))} := by
  intro other pointed fuel path held resolved
  by_cases same : other = id
  · subst same
    simp only [Function.update_self] at held
    cases held
    cases fuel with
    | zero => cases resolved
    | succ fuel =>
      rw [takes] at resolved
      obtain ⟨outer,inside,rfl⟩ := Option.map_eq_some_iff.mp resolved
      obtain ⟨cell,rfl,found⟩ := taken.points points inside
      exact ⟨_,rfl,found.extend step⟩
  · simp only [Function.update_of_ne same] at held
    exact taken other pointed fuel path held resolved

theorem Bound.assign (bound : Bound inputs bindings env) (target : Option Value) (result : Nat)
    (other : ∀ id kind, bindings.lookup id = some kind → target ≠ some (.localVar id)) :
    Bound inputs bindings (env.assign target result) := by
  intro id kind known
  have kept : (env.assign target result).locals id = env.locals id := by
    unfold Env.assign
    split
    · rename_i assigned
      refine Function.update_of_ne ?_ _ _
      intro same
      exact other id kind known (by rw [same])
    · rfl
    · rfl
  rw [kept]
  exact bound id kind known

theorem Taken.assign (taken : Taken inputs scope env) (target : Option Value) (result : Nat) :
    Taken inputs scope (env.assign target result) := by
  have kept : (env.assign target result).references = env.references := by
    unfold Env.assign
    split <;> rfl
  intro id referent fuel path points
  rw [kept] at points
  exact taken id referent fuel path points

theorem Executes.right {unit : CodeUnit} (executes : Executes inputs.sender env ir env' cell)
    (listed : ir ∈ unit.irs) (bound : Bound inputs bindings env) (taken : Taken inputs ⟨unit.toCode,bindings⟩ env)
    (other : ∀ id kind, bindings.lookup id = some kind → ir.target ≠ some (.localVar id)) :
    Bound inputs bindings env' ∧ Taken inputs ⟨unit.toCode,bindings⟩ env' ∧
      ∀ target path, ir.isPlain → ir.target = some target → Scope.pathOf ⟨unit.toCode,bindings⟩ target = some path →
        ∃ written, cell = some written ∧ written.Matches inputs path := by
  cases executes with
  | @index id key left right referent points evaluates =>
    refine ⟨bound,taken.access (fun fuel => ?_) points (.key (keyStep_is bound evaluates)),
      fun _ _ plain => nomatch plain⟩
    simp only [Scope.resolveAccessPath,refDef_eq ⟨unit.toCode,bindings⟩ unit.references_once listed rfl rfl]
  | @member id left name referent points =>
    refine ⟨bound,taken.access (fun fuel => ?_) points .member,fun _ _ plain => nomatch plain⟩
    simp only [Scope.resolveAccessPath,refDef_eq ⟨unit.toCode,bindings⟩ unit.references_once listed rfl rfl]
  | @write _ target referent result plain targeted points yields =>
    refine ⟨bound.assign _ _ ?_,taken.assign _ _,?_⟩
    · rw [← targeted]
      exact other
    · intro target' path _ same resolved
      cases targeted.symm.trans same
      obtain ⟨cell,stored,found⟩ := taken.points points resolved
      exact ⟨cell,by rw [stored]; rfl,found⟩
  | skip plain untargeted =>
    refine ⟨bound,taken,?_⟩
    intro target path _ targeted
    rw [untargeted] at targeted
    cases targeted

theorem lookup_mem {id : Nat} {bindings : Bindings} (known : bindings.lookup id = some kind) :
    (id,kind) ∈ bindings := by
  obtain ⟨before,after,split,_⟩ := lookup_eq_some_iff.mp known
  rw [split]
  exact mem_append_right _ mem_cons_self

theorem entryBindings_bound (given : ∀ pair ∈ code.parameters.zipIdx, env.locals pair.1 = inputs.calldata pair.2) :
    Bound inputs (entryBindings code) env := by
  intro id kind known
  obtain ⟨pair,listed,same⟩ := mem_map.mp (lookup_mem known)
  cases same
  exact given pair listed

theorem calleeBindings_bound (bound : Bound inputs bindings env)
    (enters : Enters inputs.sender env callee arguments env') : Bound inputs
    (calleeBindings callee arguments bindings) env' := by
  intro id kind known
  obtain ⟨pair,listed,same⟩ := mem_map.mp (lookup_mem known)
  cases same
  exact keyStep_is bound (enters.1 pair listed)

theorem fresh_taken (fresh : ∀ id, env.references id = none) : Taken inputs scope env := by
  intro id referent fuel path points
  rw [fresh id] at points
  cases points

theorem Visited.bound_parameter {id : Nat} {program : UnitId → CodeUnit} (visited : Visited program function visit)
    (known : visit.bindings.lookup id = some kind) : id ∈ (program visit.unit).parameters := by
  cases visited with
  | entry =>
    obtain ⟨pair,listed,same⟩ := mem_map.mp (lookup_mem known)
    cases same
    obtain ⟨_,there⟩ := mem_zipIdx' listed
    rw [there]
    exact getElem_mem _
  | call outer there called =>
    obtain ⟨pair,listed,same⟩ := mem_map.mp (lookup_mem known)
    cases same
    exact (of_mem_zip listed).1

end Psat.Ordering
