import Psat.Scoring.Aliases

namespace Psat.Scoring.Value
open Psat.General List Dict Ordered
open Psat.Scoring.Exposure (Floats Entity)

section Sheet

variable [LinearOrder F] {fl : Floats F}

omit [LinearOrder F] in
theorem refusal_none {plane : ValuePlane F} (admitted : plane.provenEmptyRefusal key = none) :
    plane.typedReceiptsUnresolved (plane.canonical key) = [] ∧ plane.assetSetProvenComplete
    (plane.canonical key) = true ∧
      plane.unpricedPositions (plane.canonical key) = [] := by
  revert admitted
  fun_cases ValuePlane.provenEmptyRefusal plane key with
  | case5 _ receipts complete positions =>
    exact fun _ => ⟨not_not.mp receipts,by simpa using complete,by simpa using positions⟩
  | _ => rintro ⟨⟩

structure Passed (fl : Floats F) (plane : ValuePlane F) (key : Entity) : Prop where
  notPriced : ∀ entry ∈ plane.perAssetState key, entry.2 ≠ .priced
  notBelow : ∀ entry ∈ plane.perAssetState key, entry.2 ≠ .belowResolution
  notUnpriced : ∀ entry ∈ plane.perAssetState key, entry.2 ≠ .unpriced
  something : plane.perAsset key ≠ [] ∨ plane.perAssetState key ≠ []
  admitted : plane.provenEmptyRefusal key = none

theorem provenEmpty_passed (empty : plane.sheetState fl key = .provenEmpty) : Passed fl plane (plane.canonical key) :=
    by
  revert empty
  fun_cases ValuePlane.sheetState plane fl key with
  | case6 _ values states priced below unpriced _ something admitted =>
    intro _
    rw [Bool.or_eq_true,not_or] at priced
    refine ⟨?_,?_,?_,?_,admitted⟩
    · intro entry inside state
      exact priced.1 (any_eq_true.mpr ⟨entry,inside,decide_eq_true state⟩)
    · intro entry inside state
      exact below (any_eq_true.mpr ⟨entry,inside,decide_eq_true state⟩)
    · intro entry inside state
      exact unpriced (any_eq_true.mpr ⟨entry,inside,decide_eq_true state⟩)
    · rw [Bool.or_eq_true] at something
      rcases something with values | states
      · exact .inl (by simpa using values)
      · obtain ⟨entry,inside,_⟩ := any_eq_true.mp states
        exact .inr (ne_nil_of_mem inside)
  | _ => rintro ⟨⟩

theorem assetReading_zero (priced : (assetReading fl row).2 ≠ .priced)
    (below : (assetReading fl row).2 ≠ .belowResolution) (unpriced : (assetReading fl row).2 ≠ .unpriced) :
    row.rawBalance = some 0 := by
  unfold assetReading at priced below unpriced
  cases usd : row.usdValue with
  | none =>
    rw [usd] at unpriced
    exact absurd rfl unpriced
  | some value =>
    rw [usd] at priced below
    dsimp only at priced below
    by_cases zero : value ≠ fl.zero
    · rw [if_pos zero] at priced
      exact absurd rfl priced
    · rw [if_neg zero] at below
      by_cases proven : row.isProvenZeroQuantity = true
      · exact beq_iff_eq.mp proven
      · rw [if_neg proven] at below
        exact absurd rfl below

theorem reduceBucket_zero (priced : (reduceBucket fl rows).1 ≠ .priced)
    (below : (reduceBucket fl rows).1 ≠ .belowResolution) (unpriced : (reduceBucket fl rows).1 ≠ .unpriced)
    (inside : row ∈ rows)
    (current : latestObservation (rows.filter (·.observed = row.observed)) = some latest) :
    latest.rawBalance = some 0 := by
  have read : assetReading fl latest ∈ readings fl rows := by
    refine mem_filterMap.mpr ⟨row.observed,?_,by rw [current]; rfl⟩
    unfold readAccounts
    rw [mem_mergeSort]
    exact mem_unique.mpr (mem_map_of_mem inside)
  revert priced below unpriced
  fun_cases reduceBucket fl rows with
  | case1 => exact fun priced => absurd rfl priced
  | case2 => exact fun _ below => absurd rfl below
  | case3 => exact fun _ _ unpriced => absurd rfl unpriced
  | case4 noPriced noBelow noUnpriced =>
    intro _ _ _
    refine @assetReading_zero F _ fl latest ?_ ?_ ?_
    · exact fun state => noPriced (any_eq_true.mpr ⟨_,read,decide_eq_true state⟩)
    · exact fun state => noBelow (any_eq_true.mpr ⟨_,read,decide_eq_true state⟩)
    · exact fun state => noUnpriced (any_eq_true.mpr ⟨_,read,decide_eq_true state⟩)

end Sheet

section Earned

variable (db : Database F) (aliases : List (Entity × Entity)) (key : Entity)

-- The reading its account's quantity of the asset is taken from.
def Current (row : ContractBalanceLatest F) : Prop :=
  latestObservation ((db.bucket aliases key row.asset).filter (·.observed = row.observed)) = some row

def SweptAtOwn (account : Account) : Prop :=
  ∃ fetch, db.winningAssetFetch account = some fetch ∧ fetch.assetSetSource = .chainLogSweep ∧
    fetch.sweepStatus = some .completed ∧
    some (Text.lower fetch.observedAddress) = db.addressOf account

def ListTruncated (account : Account) : Prop :=
  db.partialAccount account = true ∨ ∃ fetch, db.winningAssetFetch account = some fetch ∧
    fetch.assetSetStatus = .atPageCap

def ReceiptsResolved (account : Account) : Prop :=
  ∀ fetch, db.winningAssetFetch account = some fetch →
    ∃ entries, fetch.typedAssets = some entries ∧ ∀ entry ∈ entries, typedReceiptIsResolved entry = true

def ZeroFetched (account : Account) : Prop :=
  ∃ fetch block, db.latestFetch account = some fetch ∧ fetch.nativeStatus = .provenZero ∧ fetch.blockNumber = some block

structure NativeRecordedZero : Prop where
  recorded : ∃ row ∈ db.rowsAt aliases key, row.asset = nativeAsset
  zero : ∀ row ∈ db.rowsAt aliases key, row.asset = nativeAsset → Current db aliases key row → row.rawBalance = some 0

-- The entity's own address was read as zero, and no account folded onto it otherwise.
structure NativeFetchedZero : Prop where
  own : ∃ account ∈ db.accountsOf aliases key, db.own account = key ∧ ZeroFetched db account
  agreed : ∀ account ∈ db.accountsOf aliases key, db.latestFetch account = none ∨ ZeroFetched db account

structure Earned : Prop where
  swept : ∀ account ∈ db.accountsOf aliases key, SweptAtOwn db account
  whole : ∀ account ∈ db.accountsOf aliases key, ¬ListTruncated db account
  receipts : ∀ account ∈ db.accountsOf aliases key, ReceiptsResolved db account
  positions : db.sharesAt aliases key = []
  tokens : ∀ row ∈ db.rowsAt aliases key, row.asset ≠ nativeAsset → row.rawBalance = some 0
  native : NativeRecordedZero db aliases key ∨ NativeFetchedZero db aliases key

def SeparateAccounts : Prop :=
  ∀ account ∈ db.accountsOf aliases key, ∀ other ∈ db.accountsOf aliases key, db.own account = db.own other →
    account = other

variable {db aliases key}

theorem complete_swept (complete : db.provenComplete aliases key = true) :
    (∀ account ∈ db.accountsOf aliases key, ∃ fetch, db.winningAssetFetch account = some fetch ∧
      db.sweptAtOwnAddress account fetch = true) ∧
        ∀ account ∈ db.accountsOf aliases key, ¬ListTruncated db account := by
  simp only [Database.provenComplete,Bool.and_eq_true,decide_eq_true_eq,Bool.not_eq_true'] at complete
  obtain ⟨⟨_,none⟩,untruncated⟩ := complete
  constructor
  · intro account folded
    have reached : account ∈ db.scanned aliases key := by
      by_contra missed
      have left : account ∈ db.unscanned aliases key := mem_filter.mpr ⟨folded,decide_eq_true missed⟩
      rw [none] at left
      cases left
    obtain ⟨fetch,won,swept⟩ := (Option.any_eq_true _ _).mp (mem_filter.mp reached).2
    exact ⟨fetch,won,swept⟩
  · intro account folded cut
    have fine := any_eq_false.mp untruncated account folded
    rw [Bool.or_eq_true,not_or] at fine
    rcases cut with newer | ⟨fetch,won,capped⟩
    · exact fine.1 newer
    · exact fine.2 ((Option.any_eq_true _ _).mpr ⟨fetch,won,decide_eq_true capped⟩)

section
variable (swept : ∃ fetch, db.winningAssetFetch account = some fetch ∧ db.sweptAtOwnAddress account fetch = true)
include swept

theorem sweptAtOwn :
    SweptAtOwn db account := by
  obtain ⟨fetch,won,swept⟩ := swept
  simp only [Database.sweptAtOwnAddress,Bool.and_eq_true,decide_eq_true_eq] at swept
  obtain ⟨⟨⟨⟨source,status⟩,_⟩,_⟩,address⟩ := swept
  exact ⟨fetch,won,source,status,address⟩

theorem receiptsResolved (folded : account ∈ db.accountsOf aliases key) (none : db.typedUnresolved aliases key = []) :
    ReceiptsResolved db account := by
  intro fetch won
  obtain ⟨_,same,swept⟩ := swept
  rw [won] at same
  cases same
  simp only [Database.sweptAtOwnAddress,Bool.and_eq_true] at swept
  obtain ⟨entries,listed⟩ := Option.isSome_iff_exists.mp swept.1.2
  refine ⟨entries,listed,?_⟩
  intro entry inside
  by_contra unresolved
  have kept : entry ∈ db.typedUnresolved aliases key := by
    refine mem_flatMap.mpr ⟨account,folded,?_⟩
    rw [won]
    dsimp only
    rw [listed]
    exact mem_filter.mpr ⟨inside,by simpa using unresolved⟩
  rw [none] at kept
  cases kept

end

theorem no_shares [LinearOrder F] (none : db.unpricedPositions aliases key = []) : db.sharesAt aliases key = [] := by
  unfold Database.unpricedPositions at none
  split at none
  · rename_i empty
    exact max?_eq_none_iff.mp empty
  · cases none

theorem nativeBalanceFact_zero :
    (nativeBalanceFact status block).polarity = "proven_zero" ↔ status = .provenZero ∧ ∃ height, block = some height :=
    by
  cases status <;> cases block <;> simp [nativeBalanceFact,NativeFact.polarity]

theorem same_of_short (short : ¬1 < (unique texts).length) {first second : String} (one : first ∈ texts)
    (two : second ∈ texts) : first = second := by
  have one := mem_unique.mpr one
  have two := mem_unique.mpr two
  cases kept : unique texts with
  | nil =>
    rw [kept] at one
    cases one
  | cons head rest =>
    rw [kept] at one two short
    cases rest with
    | nil => exact (mem_singleton.mp one).trans (mem_singleton.mp two).symm
    | cons next rest => exact absurd (by simp) short

def nativeWrites (db : Database F) (aliases : List (Entity × Entity)) (key : Entity) : List (Entity × NativeFact) :=
  (db.accountsOf aliases key).filterMap fun account =>
      (db.latestFetch account).map fun fetch => (db.own account,nativeBalanceFact fetch.nativeStatus fetch.blockNumber)

theorem mem_nativeWrites (written : (entity,fact) ∈ nativeWrites db aliases key) :
    ∃ account ∈ db.accountsOf aliases key, ∃ fetch, db.latestFetch account = some fetch ∧ db.own account = entity ∧
      nativeBalanceFact fetch.nativeStatus fetch.blockNumber = fact := by
  obtain ⟨account,folded,read⟩ := mem_filterMap.mp written
  obtain ⟨fetch,latest,same⟩ := Option.map_eq_some_iff.mp read
  exact ⟨account,folded,fetch,latest,(Prod.mk.inj same).1,(Prod.mk.inj same).2⟩

theorem lookup_nativeByAccount (held : (db.nativeByAccount aliases key).lookup entity = some fact) :
    (entity,fact) ∈ nativeWrites db aliases key := by
  have last := lookup_write entity (nativeWrites db aliases key) []
  rw [lookup_nil,Option.or_none] at last
  exact mem_reverse.mp (mem_of_lookup (last.symm.trans held))

theorem separate_held (separate : SeparateAccounts db aliases key) (folded : account ∈ db.accountsOf aliases key)
    (latest : db.latestFetch account = some fetch) :
    (db.nativeByAccount aliases key).lookup (db.own account) = some
    (nativeBalanceFact fetch.nativeStatus fetch.blockNumber) := by
  have written : (db.own account,nativeBalanceFact fetch.nativeStatus fetch.blockNumber) ∈
    nativeWrites db aliases key :=
    mem_filterMap.mpr ⟨account,folded,by rw [latest]; rfl⟩
  cases held : (db.nativeByAccount aliases key).lookup (db.own account) with
  | none =>
    have last := lookup_write (db.own account) (nativeWrites db aliases key) []
    rw [lookup_nil,Option.or_none] at last
    have missing := (lookup_eq_none _ _).mp (last.symm.trans held)
    exact absurd (mem_map_of_mem (mem_reverse.mpr written)) missing
  | some fact =>
    obtain ⟨other,inside,read,newest,same,fact⟩ := mem_nativeWrites (lookup_nativeByAccount held)
    have one : account = other := separate account folded other inside same.symm
    subst one
    rw [latest] at newest
    cases newest
    rw [fact]

theorem nativeFetchedZero (separate : SeparateAccounts db aliases key) (zero : nativeZeroRead db aliases key = true) :
    NativeFetchedZero db aliases key := by
  simp only [nativeZeroRead,Bool.and_eq_true,Option.any_eq_true] at zero
  obtain ⟨_,fact,known,polarity⟩ := zero
  have polarity : fact.polarity = "proven_zero" := by simpa using polarity
  unfold Database.nativeFact at known
  dsimp only at known
  split at known
  · cases known
  split at known
  · cases known
    exact absurd polarity (by decide)
  rename_i short
  cases held : (db.nativeByAccount aliases key).lookup key with
  | none =>
    rw [held] at known
    cases known
    exact absurd polarity (by decide)
  | some stored =>
    rw [held] at known
    cases known
    obtain ⟨account,folded,fetch,latest,own,same⟩ := mem_nativeWrites (lookup_nativeByAccount held)
    have zero := nativeBalanceFact_zero.mp ((congrArg NativeFact.polarity same).trans polarity)
    obtain ⟨status,height,block⟩ := zero
    refine ⟨⟨account,folded,own,fetch,height,latest,status,block⟩,?_⟩
    intro other inside
    cases read : db.latestFetch other with
    | none => exact .inl rfl
    | some fetch' =>
      have filed := mem_of_lookup (separate_held separate inside read)
      have agrees := same_of_short short (mem_map_of_mem filed) (mem_map_of_mem (mem_of_lookup held))
      obtain ⟨status,height,block⟩ := nativeBalanceFact_zero.mp (agrees.trans polarity)
      exact .inr ⟨fetch',height,read,status,block⟩

section Verdict

variable [LinearOrder F]

theorem state_listed (inside : row ∈ db.rowsAt aliases key) :
    (row.asset,(reduceBucket fl (db.bucket aliases key row.asset)).1) ∈ (planeOf fl db aliases).perAssetState key := by
  have reduced : (row.asset,(reduceBucket fl (db.bucket aliases key row.asset)).1) ∈ reducedState fl db aliases key :=
    mem_map.mpr ⟨row.asset,mem_unique.mpr (mem_map_of_mem inside),rfl⟩
  unfold planeOf
  dsimp only
  split
  · rename_i zero
    -- The reading that is added is of an asset without a row.
    refine mem_put_of_ne reduced ?_
    intro native
    simp only [nativeZeroRead,Bool.and_eq_true,Bool.not_eq_true'] at zero
    exact any_eq_false.mp zero.1.2 row inside (decide_eq_true native)
  · exact reduced

theorem current_zero (passed : Passed fl (planeOf fl db aliases) key) (inside : row ∈ db.rowsAt aliases key)
    (current : Current db aliases key row) : row.rawBalance = some 0 := by
  have listed : _ ∈ (planeOf fl db aliases).perAssetState key := state_listed inside
  have bucketed : row ∈ db.bucket aliases key row.asset := mem_filter.mpr ⟨inside,decide_eq_true rfl⟩
  exact reduceBucket_zero (passed.notPriced _ listed) (passed.notBelow _ listed)
    (passed.notUnpriced _ listed) bucketed current

theorem rowless_read (passed : Passed fl (planeOf fl db aliases) key) (rowless : db.rowsAt aliases key = []) :
    nativeZeroRead db aliases key = true := by
  by_contra unread
  have assets : db.assetsAt aliases key = [] := by
    unfold Database.assetsAt
    rw [rowless]
    rfl
  have something := passed.something
  unfold planeOf reducedValues reducedState at something
  dsimp only at something
  rw [if_neg unread,if_neg unread,assets] at something
  simp at something

end Verdict

-- What the sweep and the readings leave open.
structure Evidenced (db : Database F) (aliases : List (Entity × Entity)) (key : Entity) : Prop where
  native : ((∀ row ∈ db.rowsAt aliases key, row.asset = nativeAsset) ∧ SeparateAccounts db aliases key) ∨
    (∃ row ∈ db.rowsAt aliases key, row.asset = nativeAsset) ∨ NativeFetchedZero db aliases key
  superseded : ∀ row ∈ db.rowsAt aliases key, row.asset ≠ nativeAsset → Current db aliases key row ∨
    row.rawBalance = some 0

theorem native_earned [LinearOrder F] (passed : Passed fl (planeOf fl db aliases) key)
    (evidenced : Evidenced db aliases key) :
    NativeRecordedZero db aliases key ∨ NativeFetchedZero db aliases key := by
  have recorded (row : ∃ row ∈ db.rowsAt aliases key, row.asset = nativeAsset) : NativeRecordedZero db aliases key :=
    ⟨row,fun _ inside _ current => current_zero passed inside current⟩
  rcases evidenced.native with ⟨natives,separate⟩ | row | fetched
  · cases rows : db.rowsAt aliases key with
    | nil => exact .inr (nativeFetchedZero separate (rowless_read passed rows))
    | cons first rest =>
      have inside : first ∈ db.rowsAt aliases key := by
        rw [rows]
        exact mem_cons_self
      exact .inl (recorded ⟨first,inside,natives first inside⟩)
  · exact .inl (recorded row)
  · exact .inr fetched

theorem proven_empty_earned_iff [LinearOrder F] {fl : Floats F} {db : Database F} {plane : ValuePlane F}
    (loaded : loadValuePlane fl db = .ok plane) {key : Entity} (empty : plane.sheetState fl key = .provenEmpty) :
    Earned db plane.aliases (plane.canonical key) ↔ Evidenced db plane.aliases (plane.canonical key) := by
  unfold loadValuePlane at loaded
  cases resolved : aliasFixedPoint (implToProxy db.contracts) with
  | error cycle =>
    rw [resolved] at loaded
    cases loaded
  | ok aliases =>
    rw [resolved] at loaded
    cases loaded
    have passed := provenEmpty_passed empty
    have facts := refusal_none passed.admitted
    have again : (planeOf fl db aliases).canonical ((planeOf fl db aliases).canonical key) =
      (planeOf fl db aliases).canonical key :=
      canonicalKey_again resolved key
    rw [again] at facts
    obtain ⟨receipts,complete,positions⟩ := facts
    obtain ⟨swept,whole⟩ := complete_swept complete
    constructor
    · intro earned
      refine ⟨?_,fun row inside token => .inr (earned.tokens row inside token)⟩
      rcases earned.native with recorded | fetched
      · exact .inr (.inl recorded.recorded)
      · exact .inr (.inr fetched)
    · intro evidenced
      refine ⟨?_,whole,?_,no_shares positions,?_,native_earned passed evidenced⟩
      · exact fun account folded => sweptAtOwn (swept account folded)
      · exact fun account folded => receiptsResolved (swept account folded) folded receipts
      · intro row inside token
        rcases evidenced.superseded row inside token with current | zero
        · exact current_zero passed inside current
        · exact zero

end Earned

-- Amounts in a smallest unit, presented as they are.
def whole : Floats Int where
  zero := 0
  one := 1
  add := (· + ·)
  sub := (· - ·)
  mul := (· * ·)
  round _ value := value

def sweptVault (native : NativeStatus) (block : Option Nat) : Database Int where
  contracts := [{id:=1,chain:=some "ethereum",address:="0xv"}]
  eoaNodes := []
  balances := [⟨1,.contract 1,some "0xt",some 0,some 0,some 5,some "0xv",none⟩]
  fetches := [⟨1,.contract 1,"0xv",block,native,.returnedAssets,.chainLogSweep,some .completed,some [],some 100,5⟩]
  positions := []
  chainById _ := none

def vaultKey : Entity := "ethereum::0xv"

theorem sweptVault_loaded (native : NativeStatus) (block : Option Nat) :
    loadValuePlane whole (sweptVault native block) = .ok (planeOf whole (sweptVault native block) []) := rfl

theorem vaultKey_own : entityKey (some (coalesceChain (some "ethereum"))) (some (Text.lower "0xv")) = vaultKey := by
  decide +kernel

theorem sweptVault_accounts (native : NativeStatus) (block : Option Nat) :
    (sweptVault native block).accountsOf [] vaultKey = [.contract 1] ∧ (sweptVault native block).own
    (.contract 1) = vaultKey ∧
      (sweptVault native block).rowsAt [] vaultKey = (sweptVault native block).balances := by
  have own : (sweptVault native block).own (.contract 1) = vaultKey := vaultKey_own
  have folds : (sweptVault native block).foldsOnto [] vaultKey (.contract 1) = true := decide_eq_true own
  refine ⟨?_,own,?_⟩
  · unfold Database.accountsOf
    exact filter_eq_self.mpr fun account inside => by rw [mem_singleton.mp inside]; exact folds
  · unfold Database.rowsAt
    refine filter_eq_self.mpr ?_
    intro row inside
    rw [mem_singleton.mp inside]
    exact folds

theorem sweptVault_zero_empty : (planeOf whole (sweptVault .provenZero (some 90)) []).sheetState whole vaultKey =
    .provenEmpty := by
  decide +kernel

theorem sweptVault_unread_empty : (planeOf whole (sweptVault .unattempted none) []).sheetState whole vaultKey =
    .provenEmpty := by
  decide +kernel

theorem vault_zero_earned : (planeOf whole (sweptVault .provenZero (some 90)) []).sheetState whole vaultKey =
    .provenEmpty ∧
    Earned (sweptVault .provenZero (some 90)) [] vaultKey := by
  obtain ⟨accounts,own,rows⟩ := sweptVault_accounts .provenZero (some 90)
  have read : ZeroFetched (sweptVault .provenZero (some 90)) (.contract 1) := ⟨_,90,rfl,rfl,rfl⟩
  refine ⟨sweptVault_zero_empty,(proven_empty_earned_iff (sweptVault_loaded _ _) sweptVault_zero_empty).mpr ⟨?_,?_⟩⟩
  · refine .inr (.inr ⟨⟨.contract 1,?_,own,read⟩,?_⟩)
    · exact accounts ▸ mem_singleton_self _
    · intro account folded
      rw [show account = .contract 1 from mem_singleton.mp (accounts ▸ folded)]
      exact .inr read
  · intro row inside _
    have only := mem_singleton.mp (rows ▸ inside)
    rw [only]
    exact .inr rfl

-- A native balance nobody has read is published as part of a proven zero.
theorem unread_native_published_empty :
    ∃ plane, loadValuePlane whole (sweptVault .unattempted none) = .ok plane ∧
    plane.sheetState whole vaultKey = .provenEmpty ∧
      ¬Earned (sweptVault .unattempted none) plane.aliases (plane.canonical vaultKey) := by
  obtain ⟨accounts,own,rows⟩ := sweptVault_accounts .unattempted none
  refine ⟨_,sweptVault_loaded _ _,sweptVault_unread_empty,?_⟩
  intro earned
  rcases earned.native with recorded | fetched
  · obtain ⟨row,inside,native⟩ := recorded.recorded
    have only := mem_singleton.mp (rows ▸ inside)
    rw [only] at native
    exact absurd native (by decide)
  · obtain ⟨account,folded,_,fetch,block,latest,_⟩ := fetched.own
    have only : account = .contract 1 := mem_singleton.mp (accounts ▸ folded)
    rw [only] at latest
    cases latest

end Psat.Scoring.Value
