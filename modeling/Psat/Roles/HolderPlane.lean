import Psat.Roles.Store

namespace Psat.Roles.HolderPlane
open Psat.General List Text
open Psat.Roles.Store (roleGranted roleRevoked)

inductive CandidateVerdict
  | confirmed
  | readCompletedNotConfirmed
  | unconfirmed
deriving DecidableEq

structure ProbeBlock where
  number : Int
  blockHash : Option String
deriving DecidableEq

structure EthCallResult where
  success : Bool
  returnData : String

-- One of the registry's AccessControl rows of the index.
structure LogRow where
  topics : List String
  dataHex : Option String := none

structure CursorRow where
  topic0 : String
  lastIndexedBlock : Nat
  backfillComplete : Bool
  enrollmentBasis : Option String

structure CoverageReport where
  rangeLowerBound : Option Nat
  rangeLowerBoundBasis : String
  pageCompleteness : String

-- What the index holds of one registry, rows in log order.
structure Index where
  chainId : Nat
  registryAddress : String
  logs : List LogRow
  cursors : List CursorRow
  coverage : CoverageReport

structure Call where
  target : String
  data : String

-- A batch may raise, answer short, or depend on anything it is asked.
structure Node where
  head : Option Int
  blockHash : Int → Option String
  ethCallBatch : List Call → Int → Option (List EthCallResult)

def isHexDigit (c : Char) : Bool := c.isDigit || ('a' ≤ c && c ≤ 'f')

-- Exactly one 32-byte word.
def normalizeWord (raw : String) : Option String :=
  match raw.toList with
  | '0' :: 'x' :: body =>
    let lowered := body.map Char.toLower
    if body.length = 64 ∧ lowered.all isHexDigit then some (String.ofList ('0' :: 'x' :: lowered)) else none
  | _ => none

def wordToAddress (raw : String) : Option String := (normalizeWord raw).map Psat.Events.lastAddress

def decodeBoolWord (raw : String) : Bool :=
  let chars := raw.toList
  if startsWith raw "0x" && decide (66 ≤ chars.length) then
    match Psat.Events.parseHex (String.ofList (chars.drop (chars.length - 64))) with
    | some value => value != 0
    | none => false
  else false

def classifyCandidate (result : EthCallResult) : CandidateVerdict :=
  if result.success then
    match normalizeWord result.returnData with
    | none => .unconfirmed
    | some word => if decodeBoolWord word then .confirmed else .readCompletedNotConfirmed
  else .unconfirmed

abbrev Folded := List (String × List (String × Bool))

def foldRow (state : Folded) (row : LogRow) : Folded :=
  match row.topics with
  | topic0 :: role :: account :: _ =>
    if lower topic0 ∈ [roleGranted,roleRevoked] then
      match normalizeWord role, wordToAddress account with
      | some roleHash, some account =>
        let accounts := (lookup roleHash state).getD []
        Dict.put roleHash (Dict.put account (lower topic0 = roleGranted) accounts) state
      | _, _ => state
    else state
  | _ => state

def foldRoleCandidates (rows : List LogRow) : Folded := rows.foldl foldRow []

def roleTopic (row : LogRow) : Option String := row.topics[1]?.bind normalizeWord

inductive RoleNameBasis
  | keccakPreimage
  | accesscontrolDefaultAdminLiteral
  | notDetermined
deriving DecidableEq

def defaultAdminRoleHash : String := "0x0000000000000000000000000000000000000000000000000000000000000000"

-- `keccak` is the hash of a text as a 0x-word.
def resolveRoleName (keccak : String → String) (roleHash : String) (candidateNames : List String)
    (hasRoleAnswered : Bool) : Option String × RoleNameBasis :=
  let normalized := normalizeWord roleHash
  match candidateNames.find? fun name => name != "" && some (keccak name) == normalized with
  | some name => (some name,.keccakPreimage)
  | none =>
    if normalized = some defaultAdminRoleHash ∧ hasRoleAnswered then
      (some "DEFAULT_ADMIN_ROLE",.accesscontrolDefaultAdminLiteral)
    else (none,.notDetermined)

def defaultConfirmationDepth : Int := 12

def pinProbeBlock (node : Node) : Option ProbeBlock :=
  match node.head with
  | none => none
  | some head =>
    let number := head - defaultConfirmationDepth
    if number ≤ 0 then none else some {number:=number,blockHash:=(node.blockHash number).bind normalizeWord}

def hasRoleSelector : String := "0x91d14854"

def encodeAddressWord (address : String) : String :=
  let chars := (lower address).toList
  let body := if startsWith (lower address) "0x" then chars.drop 2 else chars
  String.ofList (replicate (64 - body.length) '0' ++ body)

abbrev Probe := String × String

def probeCall (registry : String) (probe : Probe) : Option Call :=
  (normalizeWord probe.1).map fun word =>
      {target:=registry,data:=hasRoleSelector ++ String.ofList (word.toList.drop 2) ++ encodeAddressWord probe.2}

-- A probe without a call or an answer keeps the verdict it started with.
def assignVerdicts (registry : String) : List Probe → List EthCallResult → List CandidateVerdict
  | [], _ => []
  | probe :: rest, results =>
    match probeCall registry probe, results with
    | some _, result :: later => classifyCandidate result :: assignVerdicts registry rest later
    | _, results => .unconfirmed :: assignVerdicts registry rest results

def probeHasRole (node : Node) (registry : String) (probes : List Probe) (blockNumber : Int) :
    Option (List CandidateVerdict) :=
  if probes = [] then some []
  else (node.ethCallBatch (probes.filterMap (probeCall registry)) blockNumber).map (assignVerdicts registry probes)

structure CursorBounds where
  bothWarm : Bool
  lastIndexedBlock : Option Nat
  firstIndexedBlock : Option Nat
  firstIndexedBlockBasis : String
  enrollmentBases : List (String × Option String)
  pageCompleteness : String
deriving DecidableEq

def accessControlTopic0s : List String := [roleGranted,roleRevoked]

def cursorBounds (index : Index) : CursorBounds :=
  let byTopic := index.cursors.map fun row => (lower row.topic0,row)
  let created := index.coverage.rangeLowerBoundBasis = "creation_block_minus_one"
  { bothWarm := accessControlTopic0s.all fun topic => (lookup topic byTopic).any CursorRow.backfillComplete
    lastIndexedBlock :=
      if index.cursors.length = accessControlTopic0s.length then (index.cursors.map CursorRow.lastIndexedBlock).min?
        else none
    firstIndexedBlock := if created then index.coverage.rangeLowerBound else none
    firstIndexedBlockBasis := if created then index.coverage.rangeLowerBoundBasis else "not_determined"
    enrollmentBases := (Sorted.sortBy Prod.fst byTopic).map fun entry => (entry.1,entry.2.enrollmentBasis)
    pageCompleteness := index.coverage.pageCompleteness }

structure Disagreement where
  registry : String
  roleHash : String
  address : String
  foldActive : Bool
  chainActive : Bool
deriving DecidableEq

structure Row where
  chainId : Nat
  registryAddress : String
  roleHash : String
  holders : Option (List String) := none
  holdersBasis : String := "not_determined"
  holderSetExhaustive : String := "not_determined"
  asOfBlock : Option Int := none
  asOfBlockHash : Option String := none
  cursor : CursorBounds
  coverage : String := "partial"
  roleName : Option String × RoleNameBasis
  candidateCount : Option Nat := none
  unconfirmedCandidateCount : Option Nat := none
  foldChainDisagreements : Option (List Disagreement) := none
deriving DecidableEq

section
variable (keccak : String → String) (names : List String) (index : Index)

def registry : String := lower index.registryAddress

def undecodableRows : List LogRow := index.logs.filter fun row => row.dataHex.isSome

def folded : Folded := foldRoleCandidates (index.logs.filter fun row => row.dataHex.isNone)

def foldedRoles : List String := (folded index).map Prod.fst

def undecodableRoles : List String :=
  ((undecodableRows index).filterMap roleTopic).filter fun role => decide (role ∉ foldedRoles index)

def withheldRow (roleHash : String) : Row :=
  { chainId := index.chainId, registryAddress := lower (registry index), roleHash := roleHash,
    cursor := cursorBounds index, roleName := resolveRoleName keccak roleHash names false }

def withholdAll : List Row :=
  (Sorted.sortedSet (foldedRoles index ++ undecodableRoles index)).map (withheldRow keccak names index)

def accountsOf (role : String) : List (String × Bool) := (lookup role (folded index)).getD []

def probes : List Probe :=
  (Sorted.sortedSet (foldedRoles index)).flatMap fun role =>
      (Sorted.sortedSet ((accountsOf index role).map Prod.fst)).map fun account => (role,account)

def outcomesOf (verdicts : List (Probe × CandidateVerdict)) (role : String) : List (String × CandidateVerdict) :=
  (verdicts.filter fun entry => entry.1.1 = role).map fun entry => (entry.1.2,entry.2)

def disagreements (role : String) (outcomes : List (String × CandidateVerdict)) : List Disagreement :=
  outcomes.filterMap fun entry =>
    let active := (lookup entry.1 (accountsOf index role)).getD false
    let chain := decide (entry.2 = .confirmed)
    if entry.2 ≠ .unconfirmed ∧ active ≠ chain then some ⟨registry index,role,entry.1,active,chain⟩ else none

def roleRow (block : ProbeBlock) (verdicts : List (Probe × CandidateVerdict)) (role : String) : Row :=
  let outcomes := outcomesOf verdicts role
  let confirmed := Sorted.sortBy id ((outcomes.filter fun entry => entry.2 = .confirmed).map Prod.fst)
  if confirmed = [] then withheldRow keccak names index role
  else
    { withheldRow keccak names index role with
      registryAddress := registry index
      holders := some confirmed
      holdersBasis := "pinned_has_role_confirmed"
      asOfBlock := some block.number
      asOfBlockHash := block.blockHash
      coverage := "lower_bound"
      roleName := resolveRoleName keccak role names (verdicts.any fun entry => entry.2 ≠ .unconfirmed)
      candidateCount := some outcomes.length
      unconfirmedCandidateCount := some (outcomes.countP fun entry => entry.2 = .unconfirmed)
      foldChainDisagreements := some (disagreements index role outcomes) }

variable (probeBlock : Option ProbeBlock) (node : Node)

-- Nothing where every row is withheld, none at all where the batch raises.
def readings : Option (Option (ProbeBlock × List (Probe × CandidateVerdict))) :=
  if ¬ (cursorBounds index).bothWarm ∨ undecodableRows index ≠ [] then some none
  else
    match probeBlock.or (pinProbeBlock node) with
    | none => some none
    | some block =>
      (probeHasRole node (registry index) (probes index) block.number).map fun verdicts =>
          some (block,(probes index).zip verdicts)

def resolveRoleHolderPlanes : Option (List Row) :=
  if foldedRoles index = [] ∧ undecodableRoles index = [] then some []
  else
    (readings index probeBlock node).map fun reading =>
        match reading with
        | none => withholdAll keccak names index
        | some (block,verdicts) =>
          (Sorted.sortedSet (foldedRoles index)).map (roleRow keccak names index block verdicts)

-- Some candidate of the role is confirmed by the node's answers.
def confirms (role : String) : Bool :=
  match readings index probeBlock node with
  | some (some (_,verdicts)) => verdicts.any fun entry => entry.1.1 = role && entry.2 = .confirmed
  | _ => false

def rowsOf (role : String) (rows : List Row) : List Row := rows.filter fun row => row.roleHash = role

theorem roleRow_roleHash (block : ProbeBlock) (verdicts : List (Probe × CandidateVerdict)) (role : String) :
    (roleRow keccak names index block verdicts role).roleHash = role := by
  simp only [roleRow]
  split <;> rfl

theorem roleRow_withheld (block : ProbeBlock)
    (quiet : (verdicts.any fun entry => entry.1.1 = role && entry.2 = .confirmed) = false) :
    roleRow keccak names index block verdicts role = withheldRow keccak names index role := by
  have none : ((outcomesOf verdicts role).filter fun entry => entry.2 = .confirmed) = [] := by
    rw [filter_eq_nil_iff]
    intro outcome member found
    obtain ⟨entry,inside,same⟩ := mem_map.mp member
    obtain ⟨present,here⟩ := mem_filter.mp inside
    subst same
    have absent := any_eq_false.mp quiet entry present
    simp [here,found] at absent
  simp only [roleRow,none]
  rfl

-- Rows that name their own role can differ elsewhere only at other roles.
theorem rowsOf_map (own : ∀ role, (row role).roleHash = role) (others : ∀ role, (other role).roleHash = role)
    (same : row role = other role) (roles : List String) : rowsOf role (roles.map row) = rowsOf role
    (roles.map other) := by
  induction roles with
  | nil => rfl
  | cons head rest ih =>
    simp only [rowsOf,map_cons,filter_cons,own,others] at ih ⊢
    by_cases here : head = role
    · subst here
      simp [same,ih]
    · simp [here,ih]

theorem undecodableRoles_nil (decodable : undecodableRows index = []) : undecodableRoles index = [] := by
  simp [undecodableRoles,decodable]

-- Whatever the node answers, a role it does not confirm is published as if
-- no read had happened.
theorem rowsOf_resolve (returned : resolveRoleHolderPlanes keccak names index probeBlock node = some rows)
    (quiet : confirms index probeBlock node role = false) : rowsOf role rows = rowsOf role
    (withholdAll keccak names index) := by
  simp only [resolveRoleHolderPlanes] at returned
  split at returned
  · rename_i empty
    cases returned
    simp [withholdAll,empty.1,empty.2]
    rfl
  · obtain ⟨reading,read,published⟩ := Option.map_eq_some_iff.mp returned
    cases reading with
    | none =>
      cases published
      rfl
    | some answered =>
      obtain ⟨block,verdicts⟩ := answered
      cases published
      have decodable : undecodableRows index = [] := by
        by_contra present
        simp [readings,present] at read
      simp only [confirms,read] at quiet
      simp only [withholdAll,undecodableRoles_nil index decodable,append_nil]
      apply rowsOf_map
      · exact roleRow_roleHash keccak names index block verdicts
      · intro role
        rfl
      · exact roleRow_withheld keccak names index block quiet

theorem unconfirmed_rows_equal (first : resolveRoleHolderPlanes keccak names index probeBlock node = some rows)
    (second : resolveRoleHolderPlanes keccak names index otherBlock otherNode = some others)
    (quiet : confirms index probeBlock node role = false) (silent : confirms index otherBlock otherNode role = false) :
    rowsOf role rows = rowsOf role others := by
  rw [rowsOf_resolve keccak names index probeBlock node first quiet,
    rowsOf_resolve keccak names index otherBlock otherNode second silent]

end

def keeperWord : String := String.ofList ('0' :: 'x' :: replicate 64 'b')

def aliceWord : String := String.ofList ('0' :: 'x' :: (replicate 24 '0' ++ replicate 40 'a'))

-- Alice was granted the admin role and the keeper role.
def grantedIndex : Index where
  chainId := 1
  registryAddress := "0x11"
  logs := [{topics:=[roleGranted,defaultAdminRoleHash,aliceWord]},{topics:=[roleGranted,keeperWord,aliceWord]}]
  cursors := [⟨roleGranted,90,true,none⟩,⟨roleRevoked,80,true,none⟩]
  coverage := ⟨none,"not_determined","not_determined"⟩

def wordsAnswered (words : List String) : Node where
  head := some 100
  blockHash _ := none
  ethCallBatch _ _ := some (words.map fun word => ⟨true,word⟩)

def unpinned : Node where
  head := none
  blockHash _ := none
  ethCallBatch _ _ := some []

def planesFrom (node : Node) : Option (List Row) :=
  resolveRoleHolderPlanes (fun _ => keeperWord) ["KEEPER"] grantedIndex none node

theorem planesFrom_isSome (answers : ∀ calls number, (node.ethCallBatch calls number).isSome) :
    (planesFrom node).isSome := by
  simp only [planesFrom,resolveRoleHolderPlanes,readings,probeHasRole]
  split
  · rfl
  · split
    · rfl
    · cases pinProbeBlock node with
      | none => rfl
      | some block =>
        simp only [Option.or,Option.isSome_map]
        split
        · rfl
        · simpa using answers _ _

-- The node answers false for the admin role, or its block cannot be pinned.
theorem adminRows_reveal_nothing : ∃ answered down,
    rowsOf defaultAdminRoleHash ((planesFrom (wordsAnswered [defaultAdminRoleHash,keeperWord])).get answered) =
      rowsOf defaultAdminRoleHash ((planesFrom unpinned).get down) := by
  refine ⟨planesFrom_isSome fun _ _ => rfl,planesFrom_isSome fun _ _ => rfl,?_⟩
  apply unconfirmed_rows_equal _ _ _ _ _ (Option.some_get _).symm (Option.some_get _).symm
  · decide +kernel
  · simp [confirms,readings,pinProbeBlock,unpinned]

end Psat.Roles.HolderPlane
