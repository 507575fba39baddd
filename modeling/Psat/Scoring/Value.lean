import Psat.Text
import Psat.Scoring.Subsume

namespace Psat.Scoring.Value
open Psat.General
open Psat.Scoring.Exposure (Floats Entity)

abbrev Asset := String

def nativeAsset : Asset := "native"

def strip (text : String) : String :=
  String.ofList ((text.toList.dropWhile Char.isWhitespace).reverse.dropWhile Char.isWhitespace).reverse

def coalesceChain (chain : Option String) : String :=
  let token := Text.lower (strip (chain.getD ""))
  if token = "" ∨ token = "mainnet" then "ethereum" else token

def entityKey (chain address : Option String) : Entity := coalesceChain chain ++ "::" ++ Text.lower (address.getD "")

structure Contract where
  id : Nat
  chain : Option String
  address : String
  implementation : Option String := none

-- A balance is keyed on a `contracts` row or on the identity of an entity without one.
inductive Account
  | contract (id : Nat)
  | entity (chain address : String)
deriving DecidableEq

inductive NativeStatus
  | unattempted | provenZero | provenNonzero | fetchFailed | notDetermined
deriving DecidableEq

inductive AssetSetStatus
  | unattempted | returnedAssets | returnedEmpty | atPageCap | fetchFailed
deriving DecidableEq

inductive AssetSetSource
  | etherscanPages | chainLogSweep
deriving DecidableEq

inductive SweepStatus
  | completed | failed
deriving DecidableEq

inductive QuantityBasis
  | balanceOfAddress | balanceOfBatchPerId | balanceOfAccountIdPerId | ownerOfPerId
deriving DecidableEq

def AssetSetStatus.accepted (status : AssetSetStatus) : Bool := status = .returnedAssets || status = .returnedEmpty

def AssetSetStatus.observed (status : AssetSetStatus) : Bool := status.accepted || status = .atPageCap

structure TypedAsset where
  address : String
  quantityReadable : Bool
  quantityBasis : Option QuantityBasis
  idsComplete : Bool
  quantity : Option Int

-- `none` is an entry that is no record.
def typedReceiptIsResolved : Option TypedAsset → Bool
  | none => false
  | some entry =>
    entry.quantityReadable && !(entry.quantityBasis.any (· ≠ .balanceOfAddress) && !entry.idsComplete) &&
      entry.quantity == some 0

structure ContractBalanceFetch where
  id : Nat
  subject : Account
  observedAddress : String
  blockNumber : Option Nat
  nativeStatus : NativeStatus
  assetSetStatus : AssetSetStatus
  assetSetSource : AssetSetSource
  sweepStatus : Option SweepStatus
  typedAssets : Option (List (Option TypedAsset))
  sweptThroughBlock : Option Nat
  fetchedAt : Nat

-- A row of the latest view. `rawBalance` is the number its text reads as, if any.
structure ContractBalanceLatest (F : Type) where
  id : Nat
  subject : Account
  tokenAddress : Option String
  rawBalance : Option Int
  usdValue : Option F
  fetchedAt : Option Nat
  observedAddress : Option String
  blockNumber : Option Nat

inductive SharesBasis
  | eigenlayerBeaconShares | noEigenpodProven | other
deriving DecidableEq

structure RestakingPositionLatest (F : Type) where
  chainId : Option Nat
  nodeAddress : String
  eigenlayerBeaconSharesWei : Option F
  sharesBasis : SharesBasis
  crossReadInconsistent : Bool

-- What the session reads for one protocol, contracts in id order.
structure Database (F : Type) where
  contracts : List Contract
  eoaNodes : List (Option String × String)
  balances : List (ContractBalanceLatest F)
  fetches : List ContractBalanceFetch
  positions : List (RestakingPositionLatest F)
  chainById : Nat → Option String

def proxyRow (contract : Contract) : Option (Entity × Entity) :=
  match contract.implementation with
  | none => none
  | some implementation =>
    if implementation = "" then none
    else some (entityKey contract.chain (some implementation),entityKey contract.chain (some contract.address))

def implProxies (contracts : List Contract) (impl : Entity) : List Entity :=
  Ordered.unique (((contracts.filterMap proxyRow).filter (·.1 = impl)).map Prod.snd)

def ambiguous (contracts : List Contract) (impl : Entity) : Bool := decide (1 < (implProxies contracts impl).length)

def implToProxy (contracts : List Contract) : List (Entity × Entity) :=
  (Dict.write [] (contracts.filterMap proxyRow)).filter fun entry => !ambiguous contracts entry.1

def unmet (aliases : List (Entity × Entity)) (seen : List Entity) : List Entity :=
  (aliases.map Prod.fst).filter (· ∉ seen)

theorem unmet_shrinks (held : aliases.lookup current = some next)
    (new : current ∉ seen) : (unmet aliases (seen ++ [current])).length < (unmet aliases seen).length := by
  have known : current ∈ aliases.map Prod.fst := by
    rw [← not_not (a:=current ∈ _),← Dict.lookup_eq_none,held]
    exact Option.some_ne_none _
  have narrower : unmet aliases (seen ++ [current]) = (unmet aliases seen).filter (· ≠ current) := by
    unfold unmet
    simp [and_comm]
  rw [narrower]
  refine List.length_filter_lt_length_iff_exists.mpr ⟨current,?_,by simp⟩
  exact List.mem_filter.mpr ⟨known,decide_eq_true new⟩

def follow (aliases : List (Entity × Entity)) (seen : List Entity) (current : Entity) : Except (List Entity) Entity :=
  match _held : aliases.lookup current with
  | none => .ok current
  | some next =>
    if next = current then .ok current
    else if _new : current ∈ seen then .error (seen ++ [current])
    else follow aliases (seen ++ [current]) next
termination_by (unmet aliases seen).length
decreasing_by exact unmet_shrinks _held _new

-- A cycle is an error with the keys on it.
def aliasFixedPoint (aliases : List (Entity × Entity)) : Except (List Entity) (List (Entity × Entity)) :=
  aliases.mapM fun entry => do return (entry.1,← follow aliases [entry.1] entry.2)

variable {F : Type}

namespace Database

variable (db : Database F)

def entityIdentities : List (String × String) :=
  (Ordered.unique (db.eoaNodes.map fun node => (coalesceChain node.1,Text.lower node.2))).filter
    fun identity => identity.2 ≠ ""

def accounts : List Account :=
  db.contracts.map (fun contract => .contract contract.id) ++ db.entityIdentities.map fun identity =>
    .entity identity.1 identity.2

def chainOf : Account → Option String
  | .contract id => (db.contracts.find? (·.id = id)).map fun contract => coalesceChain contract.chain
  | .entity chain address => if (chain,address) ∈ db.entityIdentities then some chain else none

def addressOf : Account → Option String
  | .contract id => (db.contracts.find? (·.id = id)).map fun contract => Text.lower contract.address
  | .entity chain address => if (chain,address) ∈ db.entityIdentities then some address else none

def own (account : Account) : Entity := entityKey (db.chainOf account) (db.addressOf account)

def rows : List (ContractBalanceLatest F) := db.balances.filter (·.subject ∈ db.accounts)

end Database

def canonicalKey (aliases : List (Entity × Entity)) (key : Entity) : Entity := (aliases.lookup key).getD key

inductive AssetState
  | priced | belowResolution | provenZero | unpriced | airdropDelivered
deriving DecidableEq

inductive SheetState
  | priced | belowResolution | unpriced | provenEmpty | noRows | airdropDetermined
deriving DecidableEq

namespace ContractBalanceLatest

def asset (row : ContractBalanceLatest F) : Asset :=
  match row.tokenAddress with
  | none => nativeAsset
  | some token => if token = "" then nativeAsset else Text.lower token

def observed (row : ContractBalanceLatest F) : String := Text.lower (row.observedAddress.getD "")

def writeOrder (row : ContractBalanceLatest F) : Bool ×ₗ Nat ×ₗ Nat :=
  toLex (row.fetchedAt.isSome,toLex (row.fetchedAt.getD 0,row.id))

def isProvenZeroQuantity (row : ContractBalanceLatest F) : Bool := row.rawBalance == some 0

end ContractBalanceLatest

-- Block order where every reading has a height, else the order of the writes.
def latestObservation (rows : List (ContractBalanceLatest F)) : Option (ContractBalanceLatest F) :=
  if rows.all (·.blockNumber.isSome) then rows.argmax fun row => toLex (row.blockNumber.getD 0,row.writeOrder)
  else rows.argmax ContractBalanceLatest.writeOrder

section Reduce

variable [LinearOrder F] (fl : Floats F)

def roundPresented (value : F) : F :=
  let rounded := fl.round 6 value
  if rounded ≠ fl.zero ∨ value = fl.zero then rounded else value

def assetReading (row : ContractBalanceLatest F) : Option F × AssetState :=
  match row.usdValue with
  | none => (none,.unpriced)
  | some usd =>
    if usd ≠ fl.zero then (some usd,.priced)
    else if row.isProvenZeroQuantity then (some fl.zero,.provenZero)
    else (none,.belowResolution)

def readAccounts (rows : List (ContractBalanceLatest F)) : List String :=
  (Ordered.unique (rows.map (·.observed))).mergeSort

def readings (rows : List (ContractBalanceLatest F)) : List (Option F × AssetState) :=
  (readAccounts rows).filterMap fun account => (latestObservation (rows.filter (·.observed = account))).map
    (assetReading fl)

-- One bucket of `_reduce_observations`: an entity's rows of one asset.
def reduceBucket (rows : List (ContractBalanceLatest F)) : AssetState × Option F :=
  let determined := (readings fl rows).filterMap Prod.fst
  if (readings fl rows).any (·.2 = .priced) then
    (.priced,some (if "" ∈ readAccounts rows ∧ 1 < (readAccounts rows).length then determined.max?.getD fl.zero
        else determined.foldl fl.add fl.zero))
  else if (readings fl rows).any (·.2 = .belowResolution) then (.belowResolution,none)
  else if (readings fl rows).any (·.2 = .unpriced) then (.unpriced,none)
  else (.provenZero,some fl.zero)

end Reduce

namespace Database

variable (db : Database F)

def fetchOrder (fetch : ContractBalanceFetch) : Nat ×ₗ Nat := toLex (fetch.fetchedAt,fetch.id)

-- The fetch whose token rows are published: accepted before capped, then the newest.
def winningAssetFetch (account : Account) : Option ContractBalanceFetch :=
  (db.fetches.filter fun fetch => fetch.subject = account && fetch.assetSetStatus.observed).argmax
      fun fetch => toLex (fetch.assetSetStatus.accepted,fetchOrder fetch)

def newestCapped (account : Account) : Option ContractBalanceFetch :=
  (db.fetches.filter fun fetch => fetch.subject = account && fetch.assetSetStatus = .atPageCap).argmax fetchOrder

def partialAccount (account : Account) : Bool :=
  match db.newestCapped account with
  | none => false
  | some fetch =>
    match db.winningAssetFetch account with
    | none => true
    | some winner => decide (fetchOrder winner ≤ fetchOrder fetch)

def latestFetch (account : Account) : Option ContractBalanceFetch :=
  (db.fetches.filter fun fetch => fetch.subject = account && fetch.nativeStatus ≠ .unattempted).argmax fetchOrder

def sweptAtOwnAddress (account : Account) (fetch : ContractBalanceFetch) : Bool :=
  fetch.assetSetSource = .chainLogSweep && fetch.sweepStatus = some .completed && fetch.sweptThroughBlock.isSome &&
    fetch.typedAssets.isSome && some (Text.lower fetch.observedAddress) = db.addressOf account

variable (aliases : List (Entity × Entity))

def foldsOnto (key : Entity) (account : Account) : Bool := canonicalKey aliases (db.own account) = key

def accountsOf (key : Entity) : List Account := db.accounts.filter (db.foldsOnto aliases key)

def truncated (key : Entity) : Bool :=
  (db.accountsOf aliases key).any fun account =>
      db.partialAccount account || (db.winningAssetFetch account).any (·.assetSetStatus = .atPageCap)

def typedUnresolved (key : Entity) : List (Option TypedAsset) :=
  (db.accountsOf aliases key).flatMap fun account =>
      match db.winningAssetFetch account with
      | none => []
      | some fetch => (fetch.typedAssets.getD []).filter fun entry => !typedReceiptIsResolved entry

def scanned (key : Entity) : List Account :=
  (db.accountsOf aliases key).filter fun account => (db.winningAssetFetch account).any (db.sweptAtOwnAddress account)

def unscanned (key : Entity) : List Account := (db.accountsOf aliases key).filter (· ∉ db.scanned aliases key)

def accountsUnscanned (key : Entity) : List String :=
  if db.scanned aliases key = [] then [] else (db.unscanned aliases key).map fun account =>
    (db.addressOf account).getD ""

def provenComplete (key : Entity) : Bool :=
  db.scanned aliases key ≠ [] && db.unscanned aliases key = [] && !db.truncated aliases key

def rowsAt (key : Entity) : List (ContractBalanceLatest F) :=
  db.rows.filter fun row => db.foldsOnto aliases key row.subject

def bucket (key : Entity) (asset : Asset) : List (ContractBalanceLatest F) :=
  (db.rowsAt aliases key).filter (·.asset = asset)

def assetsAt (key : Entity) : List Asset := Ordered.unique ((db.rowsAt aliases key).map (·.asset))

def nativeSeen (key : Entity) : Bool := (db.rowsAt aliases key).any (·.asset = nativeAsset)

end Database

inductive NativeFact
  | provenZeroAt (block : Nat)
  | provenNonzeroAt (block : Nat)
  | nonzeroAtUnrecordedHeight
  | notDetermined
deriving DecidableEq

def nativeBalanceFact (status : NativeStatus) (block : Option Nat) : NativeFact :=
  match status,block with
  | .provenZero,some block => .provenZeroAt block
  | .provenNonzero,some block => .provenNonzeroAt block
  | .provenNonzero,none => .nonzeroAtUnrecordedHeight
  | _,_ => .notDetermined

def NativeFact.polarity : NativeFact → String
  | .provenZeroAt _ => "proven_zero"
  | .provenNonzeroAt _ => "proven_nonzero"
  | .nonzeroAtUnrecordedHeight => "nonzero_at_unrecorded_height"
  | .notDetermined => "not_determined"

namespace Database

variable (db : Database F) (aliases : List (Entity × Entity))

def nativeByAccount (key : Entity) : List (Entity × NativeFact) :=
  Dict.write [] <| (db.accountsOf aliases key).filterMap fun account =>
    (db.latestFetch account).map fun fetch => (db.own account,nativeBalanceFact fetch.nativeStatus fetch.blockNumber)

def nativeFact (key : Entity) : Option NativeFact :=
  let byAccount := db.nativeByAccount aliases key
  if byAccount = [] ∨ db.nativeSeen aliases key then none
  else if 1 < (Ordered.unique (byAccount.map (·.2.polarity))).length then some .notDetermined
  else some ((byAccount.lookup key).getD .notDetermined)

def positionKey (position : RestakingPositionLatest F) : Option Entity :=
  (position.chainId.bind db.chainById).map fun name =>
      canonicalKey aliases (entityKey (some (coalesceChain (some name))) (some position.nodeAddress))

def admittedShares (position : RestakingPositionLatest F) : Option F :=
  if position.sharesBasis = .other ∨ position.crossReadInconsistent = true then none
    else position.eigenlayerBeaconSharesWei

def sharesAt (key : Entity) : List F :=
  (db.positions.filter fun position => db.positionKey aliases position = some key).filterMap admittedShares

def unpricedPositions [LinearOrder F] (key : Entity) : List (String × F) :=
  match (db.sharesAt aliases key).max? with
  | none => []
  | some shares => [("eigenlayer_beacon_shares_wei",shares)]

end Database

-- A dict filled by one loop over accounts or rows is given as what the loop
-- leaves under a key.
structure ValuePlane (F : Type) where
  aliases : List (Entity × Entity)
  aliasAmbiguous : Entity → Bool
  perAsset : Entity → List (Asset × F)
  perAssetState : Entity → List (Asset × AssetState)
  nativeFact : Entity → Option NativeFact
  assetSetTruncated : Entity → Bool
  assetSetProvenComplete : Entity → Bool
  assetSetAccountsUnscanned : Entity → List String
  typedReceiptsUnresolved : Entity → List (Option TypedAsset)
  unpricedPositions : Entity → List (String × F)

inductive EmptyRefusal
  | typedReceiptUnresolved | unscannedAccount | assetSetNotProvenComplete | unpricedPositions
deriving DecidableEq

inductive DispositionRefusal
  | typedReceiptUnresolved | assetListTruncated | unscannedAccount | unpricedPositions
deriving DecidableEq

namespace ValuePlane

variable (plane : ValuePlane F)

def canonical (key : Entity) : Entity := canonicalKey plane.aliases key

def provenEmptyRefusal (key : Entity) : Option EmptyRefusal :=
  let canonical := plane.canonical key
  if plane.typedReceiptsUnresolved canonical ≠ [] then some .typedReceiptUnresolved
  else if !plane.assetSetProvenComplete canonical then
    if plane.assetSetAccountsUnscanned canonical ≠ [] then some .unscannedAccount else some .assetSetNotProvenComplete
  else if !(plane.unpricedPositions canonical).isEmpty then some .unpricedPositions
  else none

def dispositionRefusal (key : Entity) : Option DispositionRefusal :=
  let canonical := plane.canonical key
  if plane.typedReceiptsUnresolved canonical ≠ [] then some .typedReceiptUnresolved
  else if plane.assetSetTruncated canonical then some .assetListTruncated
  else if plane.assetSetAccountsUnscanned canonical ≠ [] then some .unscannedAccount
  else if !(plane.unpricedPositions canonical).isEmpty then some .unpricedPositions
  else none

def sheetState [LinearOrder F] (fl : Floats F) (key : Entity) : SheetState :=
  let canonical := plane.canonical key
  let values := plane.perAsset canonical
  let states := plane.perAssetState canonical
  if states.any (·.2 = .priced) || values.any (·.2 ≠ fl.zero) then .priced
  else if states.any (·.2 = .belowResolution) then .belowResolution
  else if states.any (·.2 = .unpriced) then .unpriced
  else if states.any (·.2 = .airdropDelivered) && states.all
    (fun entry => entry.2 = .airdropDelivered || entry.2 = .provenZero) then
    if plane.dispositionRefusal canonical = none then .airdropDetermined else .unpriced
  else if !values.isEmpty || states.any (·.2 = .provenZero) then
    if plane.provenEmptyRefusal canonical = none then .provenEmpty else .unpriced
  else if plane.typedReceiptsUnresolved canonical ≠ [] then .unpriced
  else .noRows

end ValuePlane

section Load

variable [LinearOrder F] (fl : Floats F) (db : Database F) (aliases : List (Entity × Entity))

def reducedState (key : Entity) : List (Asset × AssetState) :=
  (db.assetsAt aliases key).map fun asset => (asset,(reduceBucket fl (db.bucket aliases key asset)).1)

def reducedValues (key : Entity) : List (Asset × F) :=
  (db.assetsAt aliases key).filterMap fun asset => (reduceBucket fl (db.bucket aliases key asset)).2.map
    fun value => (asset,roundPresented fl value)

-- A native zero that was fetched is a reading only on a sheet proven whole.
def nativeZeroRead (key : Entity) : Bool :=
  db.provenComplete aliases key && !db.nativeSeen aliases key && (db.nativeFact aliases key).any
    (·.polarity = "proven_zero")

def planeOf : ValuePlane F where
  aliases := aliases
  aliasAmbiguous := ambiguous db.contracts
  perAsset key := if nativeZeroRead db aliases key then Dict.put nativeAsset fl.zero (reducedValues fl db aliases key)
    else reducedValues fl db aliases key
  perAssetState key := if nativeZeroRead db aliases key then Dict.put nativeAsset .provenZero
    (reducedState fl db aliases key)
    else reducedState fl db aliases key
  nativeFact := db.nativeFact aliases
  assetSetTruncated := db.truncated aliases
  assetSetProvenComplete := db.provenComplete aliases
  assetSetAccountsUnscanned := db.accountsUnscanned aliases
  typedReceiptsUnresolved := db.typedUnresolved aliases
  unpricedPositions := db.unpricedPositions aliases

def loadValuePlane : Except (List Entity) (ValuePlane F) := do
  let aliases ← aliasFixedPoint (implToProxy db.contracts)
  return planeOf fl db aliases

end Load

end Psat.Scoring.Value
