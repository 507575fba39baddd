import Mathlib.Algebra.Group.Nat.Defs

namespace Psat.Floors

inductive WitnessOutcome
  | proven
  | priorIncarnation
  | failed
deriving DecidableEq, Repr

-- A cursor writes `cursorConflict` itself; the record function never does.
inductive StoredOutcome
  | proven
  | priorIncarnation
  | failed
  | cursorConflict
deriving DecidableEq, Repr

def WitnessOutcome.stored : WitnessOutcome → StoredOutcome
  | .proven => .proven
  | .priorIncarnation => .priorIncarnation
  | .failed => .failed

def StoredOutcome.retryable (outcome : StoredOutcome) : Bool := outcome = .failed ∨ outcome = .cursorConflict

inductive Basis
  | creationBlockMinusOne
  | notDetermined
deriving DecidableEq, Repr

structure AddressFloorWitness where
  firstIndexedBlock : Option Int
  basis : Basis
  outcome : StoredOutcome
  seedBlock : Option Int
  attempts : Nat
  nextAttemptAt : Option Nat
  witnessedAt : Nat
deriving DecidableEq, Repr

structure StoredWitness where
  outcome : StoredOutcome
  attempts : Nat
deriving DecidableEq, Repr

-- One call of the record function, at the time its statement runs.
structure Record where
  outcome : WitnessOutcome
  firstIndexedBlock : Option Int := none
  seedBlock : Option Int := none
  now : Nat := 0
deriving DecidableEq, Repr

def retryDelayS (priorAttempts : Nat) : Nat := min (600 * 2 ^ min priorAttempts 8) 86400

def Record.seed (record : Record) : Option Int :=
  if record.outcome = .proven ∧ record.seedBlock = none then record.firstIndexedBlock else record.seedBlock

def Record.inserted (record : Record) : AddressFloorWitness where
  firstIndexedBlock := if record.outcome = .proven then record.firstIndexedBlock else none
  basis := if record.outcome = .proven then .creationBlockMinusOne else .notDetermined
  outcome := record.outcome.stored
  seedBlock := record.seed
  attempts := if record.outcome = .failed then 1 else 0
  nextAttemptAt := if record.outcome = .failed then some (record.now + retryDelayS 0) else none
  witnessedAt := record.now

-- The row an existing one is replaced by, where the conflict clause lets it.
def Record.updated (record : Record) (row : AddressFloorWitness) : AddressFloorWitness :=
  if record.outcome = .failed then
    {record.inserted with attempts:=row.attempts + 1,nextAttemptAt:=some (record.now + retryDelayS row.attempts)}
  else record.inserted

def Record.replaces (record : Record) (row : AddressFloorWitness) : Bool :=
  match record.outcome with
  | .failed => row.outcome.retryable
  | .priorIncarnation => true
  | .proven => ¬(row.outcome = .priorIncarnation ∧ row.seedBlock = record.seed)

def Record.upsert (record : Record) : Option AddressFloorWitness → AddressFloorWitness
  | none => record.inserted
  | some row => if record.replaces row then record.updated row else row

def recordFloorWitness (record : Record) (stored : Option AddressFloorWitness) :
    Except String (StoredWitness × Option AddressFloorWitness) :=
  if record.outcome = .proven ∧ record.firstIndexedBlock = none then .error "a proven floor witness needs its block"
  else
    let row := record.upsert stored
    .ok ({outcome:=row.outcome,attempts:=row.attempts},some row)

-- A call that raises leaves the row as it was.
def recorded (stored : Option AddressFloorWitness) (record : Record) : Option AddressFloorWitness :=
  match recordFloorWitness record stored with
  | .ok (_,row) => row
  | .error _ => stored

def recordAll (stored : Option AddressFloorWitness) (records : List Record) : Option AddressFloorWitness :=
  records.foldl recorded stored

def readFloorWitness (stored : Option AddressFloorWitness) : Option (Option Int × Basis) :=
  stored.map fun row => (row.firstIndexedBlock,row.basis)

-- A row that is no proof gives no floor.
def Floorless (stored : Option AddressFloorWitness) : Prop :=
  ∀ row ∈ stored, row.outcome ≠ .proven → row.firstIndexedBlock = none ∧ row.basis = .notDetermined

def disproved (seed : Int) (stored : Option AddressFloorWitness) : Bool :=
  stored.any fun row => row.outcome = .priorIncarnation ∧ row.seedBlock = some seed

def proofOf (seed : Int) (stored : Option AddressFloorWitness) : Bool :=
  stored.any fun row => row.outcome = .proven ∧ row.seedBlock = some seed

def Record.refused (record : Record) : Bool := record.outcome = .proven ∧ record.firstIndexedBlock = none

def Record.proves (seed : Int) (record : Record) : Bool :=
  record.outcome = .proven ∧ record.firstIndexedBlock ≠ none ∧ record.seed = some seed

-- Whether a verdict against the seed is the last word after one more record: a decided result about another
-- seed ends it, and a verdict against the seed brings it back.
def Record.upholds (seed : Int) (standing : Bool) (record : Record) : Bool :=
  match record.outcome with
  | .failed => standing
  | .priorIncarnation => record.seedBlock = some seed
  | .proven => standing ∧ (record.firstIndexedBlock = none ∨ record.seed = some seed)

def standing (seed : Int) (sinceVerdict : List Record) : Bool := sinceVerdict.foldl (Record.upholds seed) true

theorem recorded_eq :
    recorded stored record = if record.refused then stored else some (record.upsert stored) := by
  rw [recorded,recordFloorWitness,Record.refused]
  by_cases refused : record.outcome = .proven ∧ record.firstIndexedBlock = none
  · rw [if_pos refused,if_pos (decide_eq_true refused)]
  · rw [if_neg refused,if_neg (by simpa using refused)]

theorem recorded_failed (failed : record.outcome = .failed) (stored : Option AddressFloorWitness) :
    disproved seed (recorded stored record) = disproved seed stored ∧
      (proofOf seed (recorded stored record) = true → proofOf seed stored = true) := by
  rw [recorded_eq,if_neg (by simp [Record.refused,failed])]
  cases stored with
  | none => simp [Record.upsert,Record.inserted,disproved,proofOf,failed,WitnessOutcome.stored]
  | some row =>
    rw [Record.upsert]
    split
    · -- Only a failure or a conflict is replaced, so the row was no verdict before either.
      rename_i replaced
      have retried : row.outcome ≠ .priorIncarnation := by
        intro prior
        simp [Record.replaces,failed,StoredOutcome.retryable,prior] at replaced
      simp [Record.updated,Record.inserted,disproved,proofOf,failed,WitnessOutcome.stored,retried]
    · exact ⟨rfl,id⟩

theorem recorded_prior (prior : record.outcome = .priorIncarnation) (stored : Option AddressFloorWitness) :
    recorded stored record = some record.inserted := by
  rw [recorded_eq,if_neg (by simp [Record.refused,prior])]
  cases stored <;> simp [Record.upsert,Record.replaces,Record.updated,prior]

theorem recorded_proven (proven : record.outcome = .proven) (block : record.firstIndexedBlock ≠ none)
    (stored : Option AddressFloorWitness) :
    recorded stored record =
      if (stored.any fun row => row.outcome = .priorIncarnation ∧ row.seedBlock = record.seed) then stored
      else some record.inserted := by
  rw [recorded_eq,if_neg (by simp [Record.refused,proven,block])]
  cases stored with
  | none => rfl
  | some row =>
    by_cases verdict : row.outcome = .priorIncarnation ∧ row.seedBlock = record.seed <;>
      simp [Record.upsert,Record.replaces,Record.updated,proven,verdict]

theorem disproved_recorded (stored : Option AddressFloorWitness) (record : Record) :
    disproved seed (recorded stored record) = record.upholds seed (disproved seed stored) := by
  cases kind : record.outcome with
  | failed => rw [(recorded_failed kind stored).1,Record.upholds,kind]
  | priorIncarnation =>
    rw [recorded_prior kind,Record.upholds,kind]
    simp [disproved,Record.inserted,Record.seed,kind,WitnessOutcome.stored]
  | proven =>
    rw [Record.upholds,kind]
    by_cases block : record.firstIndexedBlock = none
    · rw [recorded_eq,if_pos (by simp [Record.refused,kind,block])]
      simp [block]
    rw [recorded_proven kind block]
    cases stored with
    | none => simp [disproved,Record.inserted,kind,WitnessOutcome.stored]
    | some row => by_cases about : record.seed = some seed <;> grind [disproved,Record.inserted,WitnessOutcome.stored]

theorem proofOf_recorded (proved : proofOf seed (recorded stored record) = true) :
    proofOf seed stored = true ∨ record.proves seed = true ∧ disproved seed stored = false := by
  cases kind : record.outcome with
  | failed => exact .inl ((recorded_failed kind stored).2 proved)
  | priorIncarnation =>
    rw [recorded_prior kind] at proved
    simp [proofOf,Record.inserted,kind,WitnessOutcome.stored] at proved
  | proven =>
    by_cases block : record.firstIndexedBlock = none
    · rw [recorded_eq,if_pos (by simp [Record.refused,kind,block])] at proved
      exact .inl proved
    rw [recorded_proven kind block] at proved
    split at proved
    · exact .inl proved
    · rename_i free
      have about : record.seed = some seed := by
        simpa [proofOf,Record.inserted,kind,WitnessOutcome.stored] using proved
      refine .inr ⟨by simp [Record.proves,kind,block,about],?_⟩
      rwa [about,Bool.not_eq_true] at free

theorem proofOf_of_proves (proves : record.proves seed = true) (free : disproved seed stored = false) :
    proofOf seed (recorded stored record) = true := by
  obtain ⟨proven,block,about⟩ := of_decide_eq_true proves
  rw [recorded_proven proven block,about]
  rw [disproved] at free
  rw [free]
  simp [proofOf,Record.inserted,proven,WitnessOutcome.stored,about]

theorem recordAll_after (stored : Option AddressFloorWitness) (before after : List Record) (prior : Record)
    (verdict : prior.outcome = .priorIncarnation) :
    recordAll stored (before ++ prior :: after) = recordAll (some prior.inserted) after := by
  rw [recordAll,List.foldl_append,List.foldl_cons,recorded_prior verdict]
  rfl

theorem recordAll_append (stored : Option AddressFloorWitness) (earlier : List Record) (record : Record) :
    recordAll stored (earlier ++ [record]) = recorded (recordAll stored earlier) record := by
  rw [recordAll,List.foldl_append]
  rfl

theorem disproved_recordAll (records : List Record) (stored : Option AddressFloorWitness) :
    disproved seed (recordAll stored records) = records.foldl (Record.upholds seed) (disproved seed stored) := by
  induction records generalizing stored with
  | nil => rfl
  | cons record rest ih => exact (ih (recorded stored record)).trans (by rw [disproved_recorded]; rfl)

theorem disproved_iff_standing {prior : Record} (verdict : prior.outcome = .priorIncarnation)
    (about : prior.seedBlock = some seed) (records : List Record) :
    disproved seed (recordAll (some prior.inserted) records) = standing seed records := by
  have first : disproved seed (some prior.inserted) = true := by
    simp [disproved,Record.inserted,Record.seed,verdict,about,WitnessOutcome.stored]
  rw [disproved_recordAll,first,standing]

theorem floorless_inserted (record : Record) : Floorless (some record.inserted) := by
  intro row same unproven
  cases Option.mem_some.mp same
  have other : record.outcome ≠ .proven := by
    intro proven
    simp [Record.inserted,proven,WitnessOutcome.stored] at unproven
  simp [Record.inserted,other]

theorem recorded_floorless (stored : Option AddressFloorWitness) (record : Record) (floorless : Floorless stored) :
    Floorless (recorded stored record) := by
  have inserted := floorless_inserted record
  rw [recorded_eq]
  split
  · exact floorless
  cases stored with
  | none => exact inserted
  | some row =>
    rw [Record.upsert,Record.updated]
    split
    · split
      · simpa [Floorless] using inserted
      · exact inserted
    · exact floorless

theorem standing_reads_no_floor {prior : Record} (verdict : prior.outcome = .priorIncarnation)
    (about : prior.seedBlock = some seed) (records : List Record) (upheld : standing seed records = true) :
    readFloorWitness (recordAll (some prior.inserted) records) = some (none,.notDetermined) := by
  have floorless : Floorless (recordAll (some prior.inserted) records) :=
    List.foldlRecOn records recorded (floorless_inserted prior)
      fun stored floorless record _ => recorded_floorless stored record floorless
  rw [← disproved_iff_standing verdict about records,disproved,Option.any_eq_true] at upheld
  obtain ⟨row,same,found⟩ := upheld
  have decided := of_decide_eq_true found
  obtain ⟨floor,basis⟩ := floorless row same (by rw [decided.1]; decide)
  rw [same,readFloorWitness,Option.map_some,floor,basis]

theorem disproved_floor_stays_iff (stored : Option AddressFloorWitness) (before after : List Record) (prior : Record)
    (seed : Int) (verdict : prior.outcome = .priorIncarnation) (about : prior.seedBlock = some seed) :
    (∀ n, proofOf seed (recordAll stored (before ++ prior :: after.take n)) = false) ↔
      ∀ n (inside : n < after.length), after[n].proves seed = true → standing seed (after.take n) = true := by
  simp only [recordAll_after _ _ _ _ verdict]
  constructor
  · intro never n inside proves
    apply Classical.byContradiction
    intro ended
    rw [Bool.not_eq_true,← disproved_iff_standing verdict about] at ended
    have again := proofOf_of_proves proves ended
    rw [← recordAll_append,← List.take_succ_eq_append_getElem inside,never] at again
    cases again
  · -- Record by record: a proof of the seed is stored only by a record that finds no standing verdict.
    intro upheld n
    induction n with
    | zero => simp [recordAll,proofOf,Record.inserted,verdict,WitnessOutcome.stored]
    | succ n ih =>
      by_cases inside : n < after.length
      · rw [List.take_succ_eq_append_getElem inside,recordAll_append,← Bool.not_eq_true]
        intro proved
        rcases proofOf_recorded proved with kept | ⟨proves,ended⟩
        · rw [ih] at kept
          cases kept
        · rw [disproved_iff_standing verdict about,upheld n inside proves] at ended
          cases ended
      · have past := Nat.le_of_not_lt inside
        rwa [List.take_of_length_le (Nat.le_succ_of_le past),← List.take_of_length_le past]

theorem refused_proof_keeps_verdict : Record.proves 5 {outcome:=.proven,firstIndexedBlock:=some 5} = true ∧
    ∀ n, proofOf 5 (recordAll none ([] ++ {outcome:=.priorIncarnation,seedBlock:=some 5} ::
      List.take n [{outcome:=.proven,firstIndexedBlock:=some 7},{outcome:=.priorIncarnation,seedBlock:=some 5},
        {outcome:=.failed,now:=7},{outcome:=.proven,firstIndexedBlock:=some 5}])) = false :=
  ⟨rfl,(disproved_floor_stays_iff none [] _ {outcome:=.priorIncarnation,seedBlock:=some 5} 5 rfl rfl).mpr (by decide)⟩

-- A verdict about seed 7 takes the place of the one about seed 5.
theorem disproved_floor_proven_again :
    proofOf 5
      (recordAll none [{outcome:=.priorIncarnation,seedBlock:=some 5},{outcome:=.priorIncarnation,seedBlock:=some 7},
        {outcome:=.proven,firstIndexedBlock:=some 5,seedBlock:=some 5}]) = true :=
  rfl

end Psat.Floors
