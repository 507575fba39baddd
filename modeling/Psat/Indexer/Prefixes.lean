import Psat.Indexer.Store

namespace Psat.Indexer
open Psat.General List FetchedEventLog

-- The prefixes of a page cut its logs at block boundaries.
def Cut (logs : List FetchedEventLog) (windowEnd : Nat) (previous : Nat) : List (Nat × Nat × Nat) → Prop
  | [] => previous = windowEnd
  | (offset,endOffset,prefixEnd) :: rest =>
    previous ≤ prefixEnd ∧
    (∀ log, log ∈ slice logs offset endOffset ↔
        log ∈ logs ∧ previous < log.blockNumber ∧ log.blockNumber ≤ prefixEnd) ∧
    Cut logs windowEnd prefixEnd rest

theorem slice_middle (after : List α) : slice (before ++ current ++ after) before.length
    (before.length + current.length) = current := by
  simp [slice]

abbrev Part := Nat × Nat × Nat

def partLogs (logs : List FetchedEventLog) (part : Part) : List FetchedEventLog := slice logs part.1 part.2.1

-- The prefixes tile the blocks from `lowest` to the window's end.
def Tiles (logs : List FetchedEventLog) (windowEnd lowest : Nat) : List Part → Prop
  | [] => lowest = windowEnd + 1
  | part :: rest =>
    lowest ≤ part.2.2 ∧
    partLogs logs part = logs.filter (fun log => lowest ≤ log.blockNumber ∧ log.blockNumber ≤ part.2.2) ∧
    Tiles logs windowEnd (part.2.2 + 1) rest

-- What earlier prefixes took, what the open one has gathered, and the blocks still ahead.
structure Standing (logs : List FetchedEventLog) (windowEnd lowest : Nat) (taken gathered : List FetchedEventLog)
    (ahead : List (List FetchedEventLog)) : Prop where
  split : logs = taken ++ gathered ++ ahead.flatten
  past : ∀ log ∈ taken, log.blockNumber < lowest
  inside : ∀ log ∈ gathered ++ ahead.flatten, lowest ≤ log.blockNumber ∧ log.blockNumber ≤ windowEnd
  below : ∀ log ∈ gathered, ∀ later ∈ ahead.flatten, log.blockNumber < later.blockNumber
  whole : Blocks.Increasing blockNumber ahead
  bounded : lowest ≤ windowEnd

theorem Standing.part (standing : Standing logs windowEnd lowest taken gathered ahead)
    (upto : ∀ log ∈ gathered, log.blockNumber ≤ prefixEnd)
    (beyond : ∀ log ∈ ahead.flatten, prefixEnd < log.blockNumber) :
    slice logs taken.length (taken.length + gathered.length) =
      logs.filter (fun log => lowest ≤ log.blockNumber ∧ log.blockNumber ≤ prefixEnd) := by
  have before : (taken.filter fun log => lowest ≤ log.blockNumber ∧ log.blockNumber ≤ prefixEnd) = [] := by
    rw [filter_eq_nil_iff]
    intro log member
    have := standing.past log member
    simp only [decide_eq_true_eq]
    omega
  have here : (gathered.filter fun log => lowest ≤ log.blockNumber ∧ log.blockNumber ≤ prefixEnd) = gathered := by
    rw [filter_eq_self]
    intro log member
    have low := (standing.inside log (mem_append_left _ member)).1
    simp only [decide_eq_true_eq]
    exact ⟨low,upto log member⟩
  have after : (ahead.flatten.filter fun log => lowest ≤ log.blockNumber ∧ log.blockNumber ≤ prefixEnd) = [] := by
    rw [filter_eq_nil_iff]
    intro log member
    have := beyond log member
    simp only [decide_eq_true_eq]
    omega
  rw [standing.split,slice_middle,filter_append,filter_append,before,here,after]
  simp

theorem Standing.number (standing : Standing logs windowEnd lowest taken gathered (block :: rest)) :
    ∃ number, (block.head?.map blockNumber).getD 0 = number ∧ lowest ≤ number ∧ number ≤ windowEnd ∧
      (∀ log ∈ block, log.blockNumber = number) ∧ (∀ log ∈ rest.flatten, number < log.blockNumber) ∧
      (∀ log ∈ gathered, log.blockNumber < number) := by
  obtain ⟨filled,⟨number,same,larger⟩,_⟩ := standing.whole
  obtain ⟨first,others,shape⟩ := exists_cons_of_ne_nil filled
  have firstNumber : first.blockNumber = number := same first (by simp [shape])
  have ahead : first ∈ (block :: rest).flatten := by simp [shape]
  have bounds := standing.inside first (mem_append_right _ ahead)
  rw [firstNumber] at bounds
  refine ⟨number,by simp [shape,firstNumber],bounds.1,bounds.2,same,larger,fun log member => ?_⟩
  rw [← firstNumber]
  exact standing.below log member first ahead

theorem prefixLoop_tiles (maxRows maxBytes : Nat) : ∀ {taken gathered : List FetchedEventLog}
    {lowest : Nat} (payloadBytes : Nat),
    Standing logs windowEnd lowest taken gathered ahead →
    Tiles logs windowEnd lowest (prefixLoop windowEnd maxRows maxBytes taken.length payloadBytes
      (taken.length + gathered.length) ahead) := by
  induction ahead with
  | nil =>
    intro taken gathered lowest payloadBytes standing
    refine ⟨standing.bounded,standing.part ?_ (by simp),rfl⟩
    intro log member
    exact (standing.inside log (mem_append_left _ member)).2
  | cons block rest ih =>
    intro taken gathered lowest payloadBytes standing
    obtain ⟨number,head,above,inside,same,larger,smaller⟩ := standing.number
    have split : logs = taken ++ gathered ++ (block ++ rest.flatten) := standing.split
    have ahead : ∀ log ∈ block ++ rest.flatten, number ≤ log.blockNumber ∧ log.blockNumber ≤ windowEnd := by
      intro log member
      refine ⟨?_,(standing.inside log (mem_append_right _ member)).2⟩
      rcases mem_append.mp member with here | later
      · exact Nat.le_of_eq (same log here).symm
      · exact Nat.le_of_lt (larger log later)
    unfold prefixLoop
    rw [head]
    dsimp only
    split
    · -- The open prefix has a log, so it ends at or above its lowest block.
      rename_i full
      have filled : gathered ≠ [] := by
        intro empty
        simp [empty] at full
      obtain ⟨log,member⟩ := exists_mem_of_ne_nil gathered filled
      have low := (standing.inside log (mem_append_left _ member)).1
      have high := smaller log member
      refine ⟨by dsimp only; omega,standing.part ?_ ?_,?_⟩
      · intro log member
        exact Nat.le_sub_one_of_lt (smaller log member)
      · intro log member
        exact Nat.lt_of_lt_of_le (Nat.sub_one_lt (by omega)) (ahead log member).1
      · dsimp only
        rw [Nat.sub_add_cancel (by omega : 1 ≤ number)]
        have next : Standing logs windowEnd number (taken ++ gathered) block rest := by
          refine ⟨by rw [split]; simp,?_,ahead,?_,standing.whole.2.2,inside⟩
          · intro log member
            rcases mem_append.mp member with old | new
            · exact Nat.lt_of_lt_of_le (standing.past log old) above
            · exact smaller log new
          · intro log member later ahead
            rw [same log member]
            exact larger later ahead
        have tiles := ih (block.map logBytes).sum next
        simpa [Nat.add_assoc] using tiles
    · have next : Standing logs windowEnd lowest taken (gathered ++ block) rest := by
        refine ⟨by rw [split]; simp,standing.past,?_,?_,standing.whole.2.2,standing.bounded⟩
        · intro log member
          exact standing.inside log (by simpa using member)
        · intro log member later ahead
          have beyond := larger later ahead
          rcases mem_append.mp member with new | here
          · have := smaller log new
            omega
          · rw [same log here]
            exact beyond
      have tiles := ih (payloadBytes + (block.map logBytes).sum) next
      simpa [Nat.add_assoc] using tiles

theorem writePrefixes_tiles (maxRows maxBytes : Nat) (sorted : logs.Pairwise fun a b => a.blockNumber ≤ b.blockNumber)
    (inside : ∀ log ∈ logs, lowest ≤ log.blockNumber ∧ log.blockNumber ≤ windowEnd) (forward : lowest ≤ windowEnd) :
    Tiles logs windowEnd lowest (writePrefixes logs windowEnd maxRows maxBytes) := by
  have flat := Blocks.blocks_flatten blockNumber logs
  have standing : Standing logs windowEnd lowest [] [] (Blocks.blocks blockNumber logs) := by
    refine ⟨by simp [flat],by simp,?_,by simp,Blocks.blocks_increasing _ logs sorted,forward⟩
    rw [flat]
    exact inside
  simpa [writePrefixes] using prefixLoop_tiles maxRows maxBytes 0 standing

theorem Tiles.cut (tiles : Tiles logs windowEnd (previous + 1) parts) : Cut logs windowEnd previous parts := by
  induction parts generalizing previous with
  | nil => exact Nat.succ.inj tiles
  | cons part rest ih =>
    obtain ⟨forward,held,later⟩ := tiles
    refine ⟨Nat.le_of_succ_le forward,fun log => ?_,ih later⟩
    change log ∈ partLogs logs part ↔ _
    rw [held,mem_filter,decide_eq_true_eq,Nat.succ_le_iff]

section
variable (tiles : Tiles logs windowEnd lowest parts)
include tiles

theorem Tiles.bounded : lowest ≤ windowEnd + 1 := by
  induction parts generalizing lowest with
  | nil => exact Nat.le_of_eq tiles
  | cons part rest ih =>
    have := ih tiles.2.2
    have := tiles.1
    omega

theorem Tiles.within :
    ∀ part ∈ parts, lowest ≤ part.2.2 ∧ part.2.2 ≤ windowEnd ∧ ∀ log ∈ partLogs logs part, lowest ≤ log.blockNumber :=
    by
  induction parts generalizing lowest with
  | nil => simp
  | cons first rest ih =>
    obtain ⟨forward,held,later⟩ := tiles
    intro part member
    rcases mem_cons.mp member with same | member
    · subst same
      refine ⟨forward,Nat.le_of_succ_le_succ later.bounded,fun log inside => ?_⟩
      rw [held,mem_filter,decide_eq_true_eq] at inside
      exact inside.2.1
    · obtain ⟨low,high,logs⟩ := ih later part member
      refine ⟨by omega,high,fun log inside => ?_⟩
      have := logs log inside
      omega

theorem Tiles.increasing : parts.Pairwise fun a b =>
    a.2.2 < b.2.2 ∧ ∀ log ∈ partLogs logs a, ∀ later ∈ partLogs logs b, log.blockNumber < later.blockNumber := by
  induction parts generalizing lowest with
  | nil => exact Pairwise.nil
  | cons first rest ih =>
    obtain ⟨_,held,later⟩ := tiles
    refine pairwise_cons.mpr ⟨fun part member => ?_,ih later⟩
    obtain ⟨low,_,above⟩ := later.within part member
    refine ⟨low,fun log inside other there => ?_⟩
    rw [held,mem_filter,decide_eq_true_eq] at inside
    have := above other there
    omega

end

theorem Tiles.exact (tiles : Tiles logs windowEnd lowest (before ++ part :: later)) : partLogs logs part =
    logs.filter fun log => lowest ≤ log.blockNumber ∧ (∀ earlier ∈ before, earlier.2.2 < log.blockNumber) ∧
      log.blockNumber ≤ part.2.2 := by
  induction before generalizing lowest with
  | nil => simpa using tiles.2.1
  | cons first rest ih =>
    obtain ⟨forward,_,later⟩ := tiles
    rw [ih later]
    apply filter_congr
    intro log _
    simp only [mem_cons,forall_eq_or_imp,decide_eq_decide]
    constructor
    · intro kept
      exact ⟨Nat.le_trans forward (Nat.le_of_succ_le kept.1),⟨kept.1,kept.2.1⟩,kept.2.2⟩
    · intro kept
      exact ⟨kept.2.1.1,kept.2.1.2,kept.2.2⟩

theorem Tiles.last (tiles : Tiles logs windowEnd lowest parts) (forward : lowest ≤ windowEnd) :
    parts.getLast?.map (·.2.2) = some windowEnd := by
  induction parts generalizing lowest with
  | nil =>
    have : lowest = windowEnd + 1 := tiles
    omega
  | cons part rest ih =>
    cases rest with
    | nil => simpa using Nat.succ.inj tiles.2.2
    | cons next more =>
      exact ih tiles.2.2 (Nat.le_trans tiles.2.2.1 (tiles.2.2.within next (by simp)).2.1)

-- What a visit that stops after some commits has written of its page.
def committed (logs : List FetchedEventLog) (windowEnd maxRows maxBytes stop : Nat) : List Part :=
  (writePrefixes logs windowEnd maxRows maxBytes).take stop

theorem committed_partition (windowStart maxRows maxBytes stop : Nat)
    (sorted : logs.Pairwise fun a b => a.blockNumber ≤ b.blockNumber)
    (inside : ∀ log ∈ logs, windowStart ≤ log.blockNumber ∧ log.blockNumber ≤ windowEnd)
    (forward : windowStart ≤ windowEnd) :
    (∀ before part later, committed logs windowEnd maxRows maxBytes stop = before ++ part :: later →
      partLogs logs part = logs.filter fun log =>
        (∀ earlier ∈ before, earlier.2.2 < log.blockNumber) ∧ log.blockNumber ≤ part.2.2) ∧
    ((committed logs windowEnd maxRows maxBytes stop).Pairwise fun a b =>
      a.2.2 < b.2.2 ∧ ∀ log ∈ partLogs logs a, ∀ later ∈ partLogs logs b, log.blockNumber < later.blockNumber) ∧
    (∀ part ∈ committed logs windowEnd maxRows maxBytes stop, part.2.2 ≤ windowEnd) ∧
    ((writePrefixes logs windowEnd maxRows maxBytes).length ≤ stop →
      (committed logs windowEnd maxRows maxBytes stop).getLast?.map (·.2.2) = some windowEnd) := by
  have tiles := writePrefixes_tiles maxRows maxBytes sorted inside forward
  refine ⟨fun before part later shape => ?_,tiles.increasing.sublist (take_sublist _ _),fun part member => ?_,
    fun whole => ?_⟩
  · rw [← take_append_drop stop (writePrefixes logs windowEnd maxRows maxBytes)] at tiles
    change Tiles _ _ _ (committed logs windowEnd maxRows maxBytes stop ++ _) at tiles
    rw [shape,append_assoc,cons_append] at tiles
    rw [tiles.exact]
    apply filter_congr
    intro log member
    simp [(inside log member).1]
  · exact (tiles.within part (mem_of_mem_take member)).2.1
  · rw [committed,take_of_length_le whole]
    exact tiles.last forward

def blocksTwoAndThree : List FetchedEventLog := [2,2,3].map fun block => {entry:=⟨"",0,block,"",0,[],[],none⟩}

-- Block 2 is over the budget of one row and stays whole.
theorem oversized_block_whole : committed blocksTwoAndThree 5 1 1000 2 = [(0,2,2),(2,3,5)] ∧
    (committed blocksTwoAndThree 5 1 1000 2).getLast?.map (·.2.2) = some 5 :=
  ⟨by decide,(committed_partition 1 1 1000 2 (by decide) (by decide) (by decide)).2.2.2 (by decide)⟩

end Psat.Indexer
