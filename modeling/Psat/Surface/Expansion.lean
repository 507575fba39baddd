import Psat.Surface.Projector

namespace Psat.Surface
open Psat.Capability Psat.General Ordered

-- The definition the projection replaced: all written out, merged at the end.
structure Expansion where
  rows : List Row := []
  paths : List (List Condition) := []
  residual : List CapDict := []
  ond : Bool := false
  nobody : Bool := false

def Row.conditions (row : Row) : List Condition := row.details.conditions.getD []

def Row.with_ (row : Row) (conditions : List Condition) : Row :=
  {row with details:=detailsWithConditions row.details conditions}

namespace Expansion

def valid (e : Expansion) : Bool := !e.rows.isEmpty || !e.paths.isEmpty

def admits (e : Expansion) : Bool := !e.paths.isEmpty || e.ond || !e.valid

def narrow (e : Expansion) (conditions : List Condition) : Expansion :=
  if conditions = [] then e
  else {e with
    rows:=e.rows.map (·.with_ conditions)
    paths:=e.paths.map fun path => unique (path ++ conditions)}

-- One side authorizes nobody by itself: its checks are conditions on the other.
def withSideChecks (e : Expansion) (side : List CapDict) : Expansion :=
  let narrowed := e.narrow (side.flatMap residualAsConditions)
  {rows:=narrowed.rows,paths:=narrowed.paths,residual:=e.residual ++ side}

def crossed (rows : List Row) (paths : List (List Condition)) : List Row :=
  rows.flatMap fun row => paths.map row.with_

def passed (rows : List Row) (ond : Bool) : List Row := if ond then rows.map (·.with_ [conditionNotRead]) else []

def product (left right : Expansion) : Expansion where
  rows := crossed left.rows right.paths ++ crossed right.rows left.paths ++ passed left.rows right.ond ++
    passed right.rows left.ond
  paths := left.paths.flatMap fun first => right.paths.map fun second => unique (first ++ second)
  residual := left.residual ++ right.residual ++
    if left.rows.isEmpty || right.rows.isEmpty then [] else [Projector.andMultiplePrincipalShapes]

def andPaths (left right : Expansion) : Expansion :=
  let met :=
    if !left.valid && !right.valid then {residual:=left.residual ++ right.residual}
    else if !right.valid then left.withSideChecks right.residual
    else if !left.valid then right.withSideChecks left.residual
    else left.product right
  {met with ond:=(left.ond && right.admits) || (right.ond && left.admits)}

def and_ (left right : Expansion) : Expansion :=
  let met := left.andPaths right
  if left.nobody || right.nobody then {rows:=met.rows,residual:=met.residual} else met

def or_ (left right : Expansion) : Expansion where
  rows := left.rows ++ right.rows
  paths := left.paths ++ right.paths
  residual := left.residual ++ right.residual
  ond := left.ond || right.ond

end Expansion

mutual
def expandNode (p : Projector) : CapDict → Expansion
  | ⟨fields,signer,children⟩ =>
    let cap : CapDict := ⟨fields,signer,children⟩
    if isReachNotDetermined cap then {residual:=[cap],ond:=true}
    else match fields.kind with
    | .finiteSet => {rows:=rowsForFiniteSet cap fields.conditions,nobody:=isProvenEmpty cap}
    | .thresholdGroup => {rows:=rowsForThresholdGroup cap fields.conditions p.safeAddressLookup p.functionSignature}
    | .signatureWitness => {rows:=rowsForSignatureWitness cap fields.conditions}
    | .conditionalUniversal => {paths:=[fields.conditions]}
    | .cofiniteBlacklist => {paths:=[fields.conditions ++ [{kind:=.denylist,description:=denylistDescription cap}]]}
    | .or =>
      let (e,nobodies) := expandOr p {} [] children
      {e.narrow fields.conditions with nobody:=!nobodies.isEmpty && nobodies.all (· = true)}
    | .and =>
      let (e,nobodies,blocked) := expandAnd p {} [] false children
      let narrowed := e.narrow fields.conditions
      {narrowed with
         paths:=if blocked then [] else narrowed.paths
         nobody:=!nobodies.isEmpty && nobodies.any (· = true)}
    | .externalCheckOnly => {residual:=[cap]}
    | .unsupported => {residual:=[cap]}
def expandOr (p : Projector) (e : Expansion) (nobodies : List Bool) : List CapDict → Expansion × List Bool
  | [] => (e,nobodies)
  | child :: rest =>
    let c := expandNode p child
    expandOr p (e.or_ c) (nobodies ++ [c.nobody]) rest
def expandAnd (p : Projector) (e : Expansion) (nobodies : List Bool) (blocked : Bool) :
    List CapDict → Expansion × List Bool × Bool
  | [] => (e,nobodies,blocked)
  | child :: rest =>
    let c := expandNode p child
    let blocks := p.earnedPublic && !c.valid && isRootAuthorityBlocker child
    expandAnd p ({e with nobody:=nobodies.any (· = true)}.and_ c) (nobodies ++ [c.nobody]) (blocked || blocks) rest
end

def mergeCopy (existing row : Row) : Row :=
  let details := existing.details
  let other := row.details
  let trace := insertKeys details.trace other.trace
  {existing with details:={details with
      conditions:=some (unique (existing.conditions ++ row.conditions))
      trace:=if trace.isEmpty then details.trace else trace
      membershipQuality:=
        if details.membershipQuality.isSome || other.membershipQuality.isSome then
          some (mergedMembershipQuality details.membershipQuality.join other.membershipQuality.join)
        else details.membershipQuality}}

def addRow (out : List Row) (row : Row) : List Row :=
  if out.any (fun existing => rowKey existing = rowKey row) then
    out.map fun existing => if rowKey existing = rowKey row then mergeCopy existing row else existing
  else out ++ [row]

def dedupe (rows : List Row) : List Row := rows.foldl addRow []

def enumeratePaths : PathExpr → List Ids
  | .leaf ids => [ids]
  | .or left right => enumeratePaths left ++ enumeratePaths right
  | .and left right =>
    (enumeratePaths left).flatMap fun first => (enumeratePaths right).map fun second => unique (first ++ second)
  | .app paths ids => (enumeratePaths paths).map fun path => unique (path ++ ids)

structure PublicPathList where
  paths : List (List Condition) := []
  incompleteReason : Option String := none

def publicPathListBudget : Nat := 256

def publicPathListBudgetExceeded : String := "public_path_list_budget_exceeded"

-- The public paths themselves, at most `budget` of them.
def CapabilitySurface.publicPathList (surface : CapabilitySurface) (budget : Nat := publicPathListBudget) :
    PublicPathList :=
  match surface.paths with
  | none => {}
  | some expr =>
    if surface.publicPathCount = 0 then {}
    else {
      paths:=((enumeratePaths expr).take budget).map fun path => path.filterMap fun ident => surface.table[ident]?
      incompleteReason:=if budget < surface.publicPathCount then some publicPathListBudgetExceeded else none }

structure Expanded where
  rows : List Row
  residual : List CapDict
  openNotDetermined : Bool
  paths : List (List Condition)

def expanded (p : Projector) (cap : CapDict) : Expanded where
  rows := dedupe (expandNode p cap).rows
  residual := (expandNode p cap).residual
  openNotDetermined := (expandNode p cap).ond
  paths := (expandNode p cap).paths.map unique

end Psat.Surface
