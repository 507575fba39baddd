import Mathlib.Algebra.GroupWithZero.Nat
import Psat.Surface.Rows

namespace Psat.Surface
open Psat.Capability Psat.General

def projectionWorkBudget : Nat := 20000000

-- What one projection is given; `earnedPublic` is on by default.
structure Projector where
  safeAddressLookup : List (String × String) := []
  functionSignature : Option String := none
  earnedPublic : Bool := true
  budget : Nat := projectionWorkBudget

-- What one projection changes: the interned conditions and the work spent.
structure Ledger where
  table : List Condition := []
  work : Nat := 0
deriving DecidableEq

-- Running over the budget is the only way a projection stops.
abbrev Project := StateT Ledger Option

abbrev Ids := List Nat

-- Every copy of one row the expansion would hold, merged.
structure RowAcc where
  row : Row
  first : Ids
  union : Ids
  multi : Bool
  touched : Bool
  trace : List TraceStep
  hasQuality : Bool
  quality : Option MembershipQuality

inductive PathExpr
  | leaf (ids : Ids)
  | or (left right : PathExpr)
  | and (left right : PathExpr)
  | app (paths : PathExpr) (ids : Ids)

-- `identity` tells the shared `_EMPTY` object from an equal summary.
structure Summary where
  rows : List (RowKey × RowAcc) := []
  residual : List CapDict := []
  ond : Bool := false
  count : Nat := 0
  pfirst : Ids := []
  punion : Ids := []
  pexpr : Option PathExpr := none
  nobody : Bool := false
  identity : Bool := false

def Summary.empty : Summary := {identity:=true}

def Summary.valid (s : Summary) : Bool := !s.rows.isEmpty || decide (0 < s.count)

def Summary.mayAdmitAnyone (s : Summary) : Bool := !s.nobody && (decide (0 < s.count) || s.ond || !s.valid)

def conditionNotRead : Condition := {kind:=.business,description:="condition not read"}

def residualAsConditions (residual : CapDict) : List Condition :=
  let described : String :=
    if isReachNotDetermined residual then
      "condition not read: " ++
        (truthy (residual.check.bind fun check => check.extra.expression)).getD "reach condition"
    else match truthy (residual.check.bind fun check => check.targetAddress) with
      | some target =>
        let suffix := match truthy (residual.check.bind fun check => check.targetCallSelector) with
          | some selector => "." ++ selector
          | none => ""
        "external authorization check: " ++ target ++ suffix
      | none => match truthy residual.unsupportedReason with
        | some reason => "unresolved check: " ++ reason
        | none => "external authorization check"
  residual.conditions ++ [{kind:=.business,description:=described}]

def denylistDescription (cap : CapDict) : String :=
  let excluded := toString (cap.blacklist.getD []).length
  match cap.blacklistQuality with
  | some .exact => "denylist exclusion (" ++ excluded ++ " excluded, exhaustive)"
  | none => "denylist exclusion (" ++ excluded ++ " known excluded; completeness not recorded)"
  | some _ => "denylist exclusion (at least " ++ excluded ++ " excluded; not exhaustive)"

namespace Projector

def spend (p : Projector) (units : Nat) : Project Unit := fun ledger =>
  if p.budget < ledger.work + units then none
  else some ((),{ledger with work:=ledger.work + units})

def internOne (condition : Condition) : Project Nat := fun ledger =>
  match ledger.table.idxOf? condition with
  | some ident => some (ident,ledger)
  | none => some (ledger.table.length,{ledger with table:=ledger.table ++ [condition]})

def intern (p : Projector) (conditions : List Condition) : Project Ids := do
  p.spend conditions.length
  conditions.foldlM (fun out condition => do return Ordered.insertKey out (← internOne condition)) []

def unique (p : Projector) (parts : List Ids) : Project Ids := do
  p.spend (parts.map List.length).sum
  return Ordered.unique parts.flatten

def merge (p : Projector) (earlier later : RowAcc) : Project RowAcc := do
  p.spend (earlier.trace.length + later.trace.length)
  let union ← p.unique [earlier.union,later.union]
  return {
    row:=earlier.row
    first:=earlier.first
    union
    multi:=true
    touched:=earlier.touched
    trace:=Ordered.insertKeys earlier.trace later.trace
    hasQuality:=earlier.hasQuality || later.hasQuality
    quality:=mergedMembershipQuality earlier.quality later.quality }

def leafPath (p : Projector) (conditions : List Condition) : Project Summary := do
  let ids ← p.intern conditions
  return {count:=1,pfirst:=ids,punion:=ids,pexpr:=some (.leaf ids)}

def leafRow (p : Projector) (row : Row) : Project RowAcc := do
  p.spend 1
  let first ← p.intern (row.details.conditions.getD [])
  return {
    row,first,union:=first,multi:=false,touched:=false,trace:=row.details.trace
    hasQuality:=row.details.membershipQuality.isSome
    quality:=row.details.membershipQuality.join }

def leafRows (p : Projector) (rows : List Row) : Project Summary := do
  let accs ← rows.foldlM (fun accs row => do
    let acc ← p.leafRow row
    Ordered.mergeAt p.merge (rowKey row) acc accs) []
  return {rows:=accs}

def concat (p : Projector) (parts : List (List (RowKey × RowAcc))) : Project (List (RowKey × RowAcc)) :=
  parts.foldlM (fun out part => Ordered.mergeAll p.merge out part) []

def withConditions (p : Projector) (ids : Ids) (acc : RowAcc) : Project RowAcc := do
  let first ← p.unique [acc.first,ids]
  let union ← p.unique [acc.first,ids,acc.union]
  return {acc with first,union,touched:=true}

-- Every copy once per path of `paths`, with that path's conditions appended.
def crossedFirst (p : Projector) (paths : Summary) (acc : RowAcc) : Project Ids :=
  if paths.pfirst = [] then pure acc.first else p.unique [acc.first,paths.pfirst]

def crossed (p : Projector) (paths : Summary) (acc : RowAcc) : Project RowAcc := do
  let first ← p.crossedFirst paths acc
  let union ← p.unique [acc.first,paths.punion,acc.union]
  return {acc with
    first,union
    multi:=acc.multi || decide (1 < paths.count)
    touched:=acc.touched || !paths.pfirst.isEmpty}

-- Node conditions narrow a real authorization; they never constitute one.
def append (p : Projector) (surface : Summary) (raw : List Condition) : Project Summary := do
  if raw = [] then return surface
  let ids ← p.intern raw
  let rows ← Ordered.mapValues (p.withConditions ids) surface.rows
  if surface.count = 0 then
    return {rows,residual:=surface.residual,ond:=surface.ond,nobody:=surface.nobody}
  let pfirst ← p.unique [surface.pfirst,ids]
  let punion ← p.unique [surface.pfirst,ids,surface.punion]
  return {
    rows,residual:=surface.residual,ond:=surface.ond,count:=surface.count,pfirst,punion
    pexpr:=surface.pexpr.map (.app · ids)
    nobody:=surface.nobody }

def orPaths (p : Projector) (left right : Summary) : Project (Ids × Ids × Option PathExpr) :=
  if right.count = 0 then pure (left.pfirst,left.punion,left.pexpr)
  else if left.count = 0 then pure (right.pfirst,right.punion,right.pexpr)
  else do
    let punion ← p.unique [left.punion,right.punion]
    return (left.pfirst,punion,left.pexpr.bind fun l => right.pexpr.map fun r => .or l r)

def or_ (p : Projector) (left right : Summary) : Project Summary := do
  if left.identity then return right
  p.spend (left.residual.length + right.residual.length)
  let paths ← p.orPaths left right
  let rows ← p.concat [left.rows,right.rows]
  return {
    rows,residual:=left.residual ++ right.residual,ond:=left.ond || right.ond,count:=left.count + right.count
    pfirst:=paths.1,punion:=paths.2.1,pexpr:=paths.2.2,nobody:=left.nobody && right.nobody }

-- The callers and paths of `valid`, the other side folded in as side conditions.
def withSideChecks (p : Projector) (valid : Summary) (sideResidual : List CapDict) : Project Summary := do
  let appended ← p.append valid (sideResidual.flatMap residualAsConditions)
  return {
    rows:=appended.rows,residual:=valid.residual ++ sideResidual,count:=appended.count
    pfirst:=appended.pfirst,punion:=appended.punion,pexpr:=appended.pexpr }

-- `__init__` interns this condition first, so its id is 0.
def notRead : Ids := [0]

def andMultiplePrincipalShapes : CapDict :=
  {kind:=.unsupported,unsupportedReason:=some "and_multiple_principal_shapes"}

def crossedRows (p : Projector) (paths : Summary) (rows : List (RowKey × RowAcc)) : Project (List (RowKey × RowAcc)) :=
  if paths.count = 0 then pure [] else Ordered.mapValues (p.crossed paths) rows

-- A side that may admit anyone passes the other side's callers through, as a
-- public path would.
def passedRows (p : Projector) (side : Summary) (rows : List (RowKey × RowAcc)) : Project (List (RowKey × RowAcc)) :=
  if side.ond then Ordered.mapValues (p.withConditions notRead) rows else pure []

def productResidual (left right : Summary) : List CapDict :=
  left.residual ++ right.residual ++
    if left.rows.isEmpty || right.rows.isEmpty then [] else [andMultiplePrincipalShapes]

def product (p : Projector) (left right : Summary) : Project Summary := do
  let leftCrossed ← p.crossedRows right left.rows
  let rightCrossed ← p.crossedRows left right.rows
  let leftPassed ← p.passedRows right left.rows
  let rightPassed ← p.passedRows left right.rows
  let rows ← p.concat [leftCrossed,rightCrossed,leftPassed,rightPassed]
  if left.count = 0 ∨ right.count = 0 then return {rows,residual:=productResidual left right}
  let pfirst ← p.unique [left.pfirst,right.pfirst]
  let punion ← p.unique [left.pfirst,right.punion,left.punion]
  return {
    rows,residual:=productResidual left right,count:=left.count * right.count,pfirst,punion
    pexpr:=left.pexpr.bind fun l => right.pexpr.map fun r => PathExpr.and l r }

def meet (p : Projector) (left right : Summary) : Project Summary :=
  if !left.valid && !right.valid then pure {residual:=left.residual ++ right.residual}
  else if !right.valid then p.withSideChecks left right.residual
  else if !left.valid then p.withSideChecks right left.residual
  else p.product left right

def and_ (p : Projector) (left right : Summary) : Project Summary := do
  p.spend (left.residual.length + right.residual.length)
  let surface ← p.meet left right
  -- No end user passes a conjunct proven to admit nobody.
  if left.nobody || right.nobody then
    return {rows:=surface.rows,residual:=surface.residual,nobody:=true}
  return {surface with ond:=(left.ond && right.mayAdmitAnyone) || (right.ond && left.mayAdmitAnyone)}

-- Beside an unresolved root-caller authorization, public paths are not earned.
def withhold (blocked : Bool) (surface : Summary) : Summary :=
  if blocked && decide (0 < surface.count) then
    {rows:=surface.rows,residual:=surface.residual,ond:=surface.ond,nobody:=surface.nobody}
  else surface

mutual
def node (p : Projector) : CapDict → Project Summary
  | ⟨fields,signer,children⟩ => do
    let cap : CapDict := ⟨fields,signer,children⟩
    p.spend 1
    if isReachNotDetermined cap then return {residual:=[cap],ond:=true}
    match fields.kind with
    | .finiteSet =>
      let surface ← p.leafRows (rowsForFiniteSet cap fields.conditions)
      return {surface with nobody:=isProvenEmpty cap}
    | .thresholdGroup =>
      p.leafRows (rowsForThresholdGroup cap fields.conditions p.safeAddressLookup p.functionSignature)
    | .signatureWitness => p.leafRows (rowsForSignatureWitness cap fields.conditions)
    | .conditionalUniversal => p.leafPath fields.conditions
    | .or =>
      let surface ← orLoop p Summary.empty children
      p.append surface fields.conditions
    | .and =>
      -- Start empty: `anyone` must be earned by a conjunct.
      let (surface,blocked) ← andLoop p Summary.empty false children
      return withhold blocked (← p.append surface fields.conditions)
    | .cofiniteBlacklist =>
      p.leafPath (fields.conditions ++ [{kind:=.denylist,description:=denylistDescription cap}])
    | .externalCheckOnly => return {residual:=[cap]}
    | .unsupported => return {residual:=[cap]}
def orLoop (p : Projector) (surface : Summary) : List CapDict → Project Summary
  | [] => return surface
  | child :: rest => do
    let childSurface ← node p child
    let surface ← p.or_ surface childSurface
    orLoop p surface rest
def andLoop (p : Projector) (surface : Summary) (blocked : Bool) : List CapDict → Project (Summary × Bool)
  | [] => return (surface,blocked)
  | child :: rest => do
    let childSurface ← node p child
    let blocks := p.earnedPublic && !childSurface.valid && isRootAuthorityBlocker child
    let surface ← p.and_ surface childSurface
    andLoop p surface (blocked || blocks) rest
end

end Projector

def RowAcc.materialize (acc : RowAcc) (table : List Condition) : Row :=
  let conditions (ids : Ids) := ids.filterMap fun ident => table[ident]?
  let details := acc.row.details
  {acc.row with details:=
      if acc.multi then
        {details with
           conditions:=some (conditions acc.union)
           trace:=if acc.trace.isEmpty then details.trace else acc.trace
           membershipQuality:=if acc.hasQuality then some acc.quality else details.membershipQuality}
      else if acc.touched then {details with conditions:=some (conditions acc.first)}
      else details}

structure CapabilitySurface where
  principalRows : List Row := []
  residual : List CapDict := []
  openNotDetermined : Bool := false
  publicPathCount : Nat := 0
  notDeterminedReason : Option String := none
  pathConditionIds : Ids := []
  table : List Condition := []
  paths : Option PathExpr := none

def CapabilitySurface.authorityPublic (surface : CapabilitySurface) : Bool := decide (0 < surface.publicPathCount)

def projectionBudgetExceeded : String := "projection_budget_exceeded"

def projectCapabilitySurface (p : Projector) (cap : CapDict) : CapabilitySurface :=
  -- `__init__` interns the unread condition, at a cost of one.
  match (p.node cap).run {table:=[conditionNotRead],work:=1} with
  | none => {
    residual:=[{
      kind:=.unsupported,unsupportedReason:=some projectionBudgetExceeded
      confidence:=some .checkOnly}]
    notDeterminedReason:=some projectionBudgetExceeded }
  | some (summary,ledger) => {
    principalRows:=summary.rows.map fun entry => entry.2.materialize ledger.table
    residual:=summary.residual
    openNotDetermined:=summary.ond
    publicPathCount:=summary.count
    pathConditionIds:=summary.punion
    table:=ledger.table
    paths:=summary.pexpr }

inductive Openness
  | open_
  | restricted
  | notDetermined
deriving DecidableEq

def capabilitySurfaceOpenness (cap : CapDict) (surface : CapabilitySurface) : Openness :=
  if surface.notDeterminedReason.isSome then .notDetermined
  else if surface.authorityPublic then .open_
  else if surface.openNotDetermined then .notDetermined
  else if !surface.principalRows.isEmpty then .restricted
  else if isResolvedEmptyCapability cap then .restricted
  else .notDetermined

end Psat.Surface
