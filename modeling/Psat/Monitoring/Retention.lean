import Psat.Scoring.Value

namespace Psat.Scoring.Value
open Psat.General List
open Database (fetchOrder)

def NativeStatus.accepted (status : NativeStatus) : Bool :=
  status = .provenZero || status = .provenNonzero || status = .notDetermined

-- The row classes published apart: native, accepted token snapshot, partial prefix.
def rowClasses : List (ContractBalanceFetch → Bool) :=
  [(·.nativeStatus.accepted),(·.assetSetStatus.accepted),(·.assetSetStatus = .atPageCap)]

def fetchRows (subject : Account) (observedAddress : String) (fetches : List ContractBalanceFetch) :
    List ContractBalanceFetch :=
  Sorted.sortBy (fun fetch => OrderDual.toDual (fetchOrder fetch))
    (fetches.filter fun fetch => fetch.subject = subject && fetch.observedAddress = observedAddress)

def doomed (depth : Nat) (rows : List ContractBalanceFetch) : List Nat :=
  let keep := (rows.take depth ++ rowClasses.filterMap fun accepts => rows.find? accepts).map (·.id)
  (rows.map (·.id)).filter (· ∉ keep)

def pruneBalanceFetches (depth : Nat) (subject : Account) (observedAddress : String)
    (fetches : List ContractBalanceFetch) :
    List ContractBalanceFetch :=
  let rows := fetchRows subject observedAddress fetches
  if rows.length ≤ depth then fetches else fetches.filter (·.id ∉ doomed depth rows)

-- A fetch is written, and its history pruned.
structure Write where
  fetch : ContractBalanceFetch
  depth : Nat
  subject : Account
  observedAddress : String

def Write.apply (fetches : List ContractBalanceFetch) (write : Write) : List ContractBalanceFetch :=
  pruneBalanceFetches write.depth write.subject write.observedAddress (fetches ++ [write.fetch])

def Database.nativeWinner (db : Database F) (account : Account) : Option ContractBalanceFetch :=
  (db.fetches.filter fun fetch => fetch.subject = account && fetch.nativeStatus.accepted).argmax fetchOrder

-- Of every class each fetch has one of its subject that is no older.
def Covers (stored written : List ContractBalanceFetch) : Prop :=
  ∀ accepts ∈ rowClasses, ∀ fetch ∈ written, accepts fetch = true →
    ∃ newer ∈ stored, accepts newer = true ∧ newer.subject = fetch.subject ∧ fetchOrder fetch ≤ fetchOrder newer

section
variable {stored written fetches : List ContractBalanceFetch}

theorem first_newest (member : fetch ∈ fetchRows subject address fetches) (accepted : accepts fetch = true) :
    ∃ newer ∈ fetchRows subject address fetches, (fetchRows subject address fetches).find? accepts = some newer ∧
    accepts newer = true ∧
      fetchOrder fetch ≤ fetchOrder newer := by
  obtain ⟨newer,found⟩ := Option.isSome_iff_exists.mp (find?_isSome.mpr ⟨fetch,member,accepted⟩)
  refine ⟨newer,mem_of_find?_eq_some found,found,find?_some found,?_⟩
  obtain ⟨_,before,after,split,refused⟩ := find?_eq_some_iff_append.mp found
  have ordered := Sorted.pairwise_sortBy (fun fetch => OrderDual.toDual (fetchOrder fetch))
    (fetches.filter fun fetch => fetch.subject = subject && fetch.observedAddress = address)
  change (fetchRows subject address fetches).Pairwise _ at ordered
  rw [split] at ordered member
  rcases mem_append.mp member with early | late
  · have denied := refused fetch early
    simp [accepted] at denied
  · rcases mem_cons.mp late with rfl | later
    · exact le_refl _
    · exact (pairwise_cons.mp (pairwise_append.mp ordered).2.1).1 fetch later

theorem prune_sublist : (pruneBalanceFetches depth subject address fetches).Sublist fetches := by
  unfold pruneBalanceFetches
  dsimp only
  split
  · exact .refl _
  · exact filter_sublist

theorem prune_covers (distinct : (fetches.map (·.id)).Nodup) : Covers
    (pruneBalanceFetches depth subject address fetches) fetches := by
  intro accepts listed fetch member accepted
  unfold pruneBalanceFetches
  dsimp only
  split
  · exact ⟨fetch,member,accepted,rfl,le_refl _⟩
  by_cases gone : fetch.id ∈ doomed depth (fetchRows subject address fetches)
  · -- The fetch is a row of the pruned history; the newest of its class stays.
    obtain ⟨row,inRows,same⟩ := mem_map.mp (mem_of_mem_filter gone)
    have inside (other : ContractBalanceFetch) (inRows : other ∈ fetchRows subject address fetches) : other ∈ fetches ∧
      other.subject = subject := by
      have facts := mem_filter.mp ((Sorted.mem_sortBy _ _ _).mp inRows)
      simp only [Bool.and_eq_true,decide_eq_true_eq] at facts
      exact ⟨facts.1,facts.2.1⟩
    obtain rfl : row = fetch := inj_on_of_nodup_map distinct (inside row inRows).1 member same
    obtain ⟨newer,newerRow,found,holds,order⟩ := first_newest inRows accepted
    refine ⟨newer,mem_filter.mpr ⟨(inside newer newerRow).1,?_⟩,holds,(inside newer newerRow).2.trans
      (inside row inRows).2.symm,order⟩
    have kept : newer ∈ (fetchRows subject address fetches).take depth ++ rowClasses.filterMap fun accepts =>
      (fetchRows subject address fetches).find? accepts := mem_append_right _ (mem_filterMap.mpr ⟨accepts,listed,found⟩)
    simp only [doomed,mem_filter,decide_eq_true_eq,not_and,not_not]
    exact fun _ => mem_map_of_mem kept
  · exact ⟨fetch,mem_filter.mpr ⟨member,decide_eq_true gone⟩,accepted,rfl,le_refl _⟩

structure Pruned (stored written : List ContractBalanceFetch) : Prop where
  sublist : stored.Sublist written
  covers : Covers stored written

theorem Pruned.write (pruned : Pruned stored written) (write : Write)
    (distinct : ((written ++ [write.fetch]).map (·.id)).Nodup) :
    Pruned (write.apply stored) (written ++ [write.fetch]) := by
  have grown := pruned.sublist.append_right [write.fetch]
  refine ⟨prune_sublist.trans grown,fun accepts listed fetch member accepted => ?_⟩
  have known : ∃ newer ∈ stored ++ [write.fetch], accepts newer = true ∧ newer.subject = fetch.subject ∧
    fetchOrder fetch ≤ fetchOrder newer := by
    rcases mem_append.mp member with old | is
    · obtain ⟨newer,inside,facts⟩ := pruned.covers accepts listed fetch old accepted
      exact ⟨newer,mem_append_left _ inside,facts⟩
    · exact ⟨fetch,mem_append_right _ is,accepted,rfl,le_refl _⟩
  obtain ⟨newer,inside,holds,subject,order⟩ := known
  obtain ⟨last,kept,accepts,same,later⟩ :=
    prune_covers (distinct.sublist (grown.map _)) accepts listed newer inside holds
  exact ⟨last,kept,accepts,same.trans subject,order.trans later⟩

theorem Pruned.writes (writes : List Write) (pruned : Pruned stored written)
    (distinct : ((written ++ writes.map (·.fetch)).map (·.id)).Nodup) :
    Pruned (writes.foldl Write.apply stored) (written ++ writes.map (·.fetch)) := by
  induction writes generalizing stored written with
  | nil => simpa using pruned
  | cons write rest ih =>
    rw [map_cons,append_cons] at distinct ⊢
    refine ih (pruned.write write (distinct.sublist ?_)) distinct
    exact (sublist_append_left _ _).map _

-- The newest of a class, where each class has one per subject that nothing of it outlives.
theorem newest_same [LinearOrder ρ] {rank : ContractBalanceFetch → ρ} (pruned : stored.Sublist written)
    (apart : ∀ a ∈ written, ∀ b ∈ written, rank a = rank b → a = b)
    (covers : ∀ fetch ∈ written, keep fetch = true → ∃ newer ∈ stored, keep newer = true ∧ rank fetch ≤ rank newer) :
    (stored.filter keep).argmax rank = (written.filter keep).argmax rank := by
  cases whole : (written.filter keep).argmax rank with
  | none =>
    have empty := argmax_eq_none.mp whole
    rw [argmax_eq_none,← sublist_nil,← empty]
    exact pruned.filter keep
  | some best =>
    obtain ⟨inWritten,kept⟩ := mem_filter.mp (argmax_mem whole)
    obtain ⟨newer,inside,holds,order⟩ := covers best inWritten kept
    have member := mem_filter.mpr ⟨inside,holds⟩
    cases cut : (stored.filter keep).argmax rank with
    | none =>
      rw [argmax_eq_none.mp cut] at member
      cases member
    | some last =>
      have inLast := (pruned.filter keep).subset (argmax_mem cut)
      have above := order.trans (le_of_mem_argmax member cut)
      have below := le_of_mem_argmax inLast whole
      rw [apart last (mem_of_mem_filter inLast) best inWritten (le_antisymm below above)]

theorem pruning_publishes_same (db : Database F) {writes : List Write} (distinct : (writes.map (·.fetch.id)).Nodup)
    (account : Account) :
    let pruned := {db with fetches:=writes.foldl Write.apply []}
  let whole := {db with fetches:=writes.map Write.fetch}
  pruned.nativeWinner account = whole.nativeWinner account ∧ pruned.winningAssetFetch account =
    whole.winningAssetFetch account ∧
    pruned.newestCapped account = whole.newestCapped account := by
  have ids : ((writes.map (·.fetch)).map (·.id)).Nodup := by rwa [map_map]
  have kept := @Pruned.writes [] [] writes ⟨.refl _,by simp [Covers]⟩ ids
  rw [nil_append] at kept
  have apart (a : ContractBalanceFetch) (inA : a ∈ writes.map (·.fetch)) (b : ContractBalanceFetch)
    (inB : b ∈ writes.map (·.fetch))
    (same : fetchOrder a = fetchOrder b) : a = b :=
    inj_on_of_nodup_map ids inA inB (Prod.mk.inj (toLex.injective same)).2
  have covered (accepts : ContractBalanceFetch → Bool) (listed : accepts ∈ rowClasses) (fetch : ContractBalanceFetch)
    (member : fetch ∈ writes.map (·.fetch)) (own : fetch.subject = account) (accepted : accepts fetch = true) :
    ∃ newer ∈ writes.foldl Write.apply [], (newer.subject = account ∧ accepts newer = true) ∧
      fetchOrder fetch ≤ fetchOrder newer := by
    obtain ⟨newer,inside,holds,subject,order⟩ := kept.covers accepts listed fetch member accepted
    exact ⟨newer,inside,⟨subject.trans own,holds⟩,order⟩
  refine ⟨newest_same kept.sublist apart ?_,newest_same kept.sublist (fun a inA b inB same => ?_) ?_,
    newest_same kept.sublist apart ?_⟩
  · intro fetch member kind
    simp only [Bool.and_eq_true,decide_eq_true_eq] at kind ⊢
    exact covered _ (by simp [rowClasses]) fetch member kind.1 kind.2
  · exact apart a inA b inB (Prod.mk.inj (toLex.injective same)).2
  · -- An accepted snapshot is outlived by an accepted one, a capped one by a capped one.
    intro fetch member kind
    simp only [Bool.and_eq_true,decide_eq_true_eq] at kind ⊢
    by_cases accepted : fetch.assetSetStatus.accepted = true
    · obtain ⟨newer,inside,holds,order⟩ := covered (·.assetSetStatus.accepted)
        (by simp [rowClasses]) fetch member kind.1 accepted
      refine ⟨newer,inside,⟨holds.1,by simp [AssetSetStatus.observed,holds.2]⟩,Prod.Lex.toLex_le_toLex.mpr
        (.inr ⟨?_,order⟩)⟩
      rw [accepted,holds.2]
    · have capped : fetch.assetSetStatus = .atPageCap := by simpa [AssetSetStatus.observed,accepted] using kind.2
      obtain ⟨newer,inside,holds,order⟩ := covered (·.assetSetStatus = .atPageCap)
        (by simp [rowClasses]) fetch member kind.1 (by simpa)
      rw [decide_eq_true_eq] at holds
      refine ⟨newer,inside,⟨holds.1,by simp [AssetSetStatus.observed,holds.2]⟩,Prod.Lex.toLex_le_toLex.mpr
        (.inr ⟨?_,order⟩)⟩
      rw [capped,holds.2]
  · intro fetch member kind
    simp only [Bool.and_eq_true,decide_eq_true_eq] at kind ⊢
    obtain ⟨newer,inside,holds,order⟩ := covered (·.assetSetStatus = .atPageCap)
      (by simp [rowClasses]) fetch member kind.1 (by simpa using kind.2)
    exact ⟨newer,inside,by simpa using holds,order⟩

end

def fetchOf (id : Nat) (native : NativeStatus) (assets : AssetSetStatus) : ContractBalanceFetch where
  id
  subject := .contract 7
  observedAddress := "0xaa"
  blockNumber := none
  nativeStatus := native
  assetSetStatus := assets
  assetSetSource := .etherscanPages
  sweepStatus := none
  typedAssets := none
  sweptThroughBlock := none
  fetchedAt := id

def failingLater : List Write :=
  [fetchOf 1 .provenNonzero .returnedAssets,fetchOf 2 .fetchFailed .atPageCap,fetchOf 3 .fetchFailed .fetchFailed,
      fetchOf 4 .fetchFailed .fetchFailed].map fun fetch => ⟨fetch,1,.contract 7,"0xaa"⟩

def noRows : Database Nat := ⟨[],[],[],[],[],fun _ => none⟩

theorem failures_keep_snapshot : (failingLater.foldl Write.apply []).map (·.id) = [1,2,4] ∧
    {noRows with fetches:=failingLater.foldl Write.apply []}.nativeWinner (.contract 7) =
      {noRows with fetches:=failingLater.map Write.fetch}.nativeWinner (.contract 7) :=
  ⟨by decide +kernel,(pruning_publishes_same noRows (by decide) (.contract 7)).1⟩

end Psat.Scoring.Value
