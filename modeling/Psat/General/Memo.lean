import Mathlib.Data.Nat.Basic
import Psat.General.Dict

namespace Psat.General.Memo
open List

-- A computation that asks for the values of some keys, one list at a time, and
-- notes which points it passes in order.
inductive Asking (κ α β : Type)
  | answer (value : β)
  | ask (keys : List κ) (next : α → Asking κ α β)
  | note (fine : Bool) (next : Asking κ α β)

namespace Asking

def bind (computation : Asking κ α β) (f : β → Asking κ α γ) : Asking κ α γ :=
  match computation with
  | .answer value => f value
  | .ask keys next => .ask keys fun value => bind (next value) f
  | .note fine next => .note fine (bind next f)

def answerWith (answers : List κ → α) : Asking κ α β → β
  | .answer value => value
  | .ask keys next => answerWith answers (next (answers keys))
  | .note _ next => answerWith answers next

theorem answerWith_bind (answers : List κ → α) (computation : Asking κ α β) (f : β → Asking κ α γ) :
    answerWith answers (bind computation f) = answerWith answers (f (answerWith answers computation)) := by
  induction computation with
  | answer value => rfl
  | ask keys next ih => exact ih (answers keys)
  | note fine next ih => exact ih

end Asking

-- Keys defined by computations over other keys, cycles allowed. A value that is
-- kept is marked.
structure Dependencies (κ α : Type) where
  node : κ → Option (Asking κ α α)
  join : List α → α
  fallback : α
  keeps : α → Bool
  mark : α → α
  cap : Nat

def Dependencies.stored (graph : Dependencies κ α) (value : α) : α :=
  if graph.keeps value then graph.mark value else value

-- The values found so far, and how many keys were refused.
structure Pass (κ α : Type) where
  memo : List (κ × α) := []
  refusals : Nat := 0

def Pass.refuse (pass : Pass κ α) : Pass κ α := {pass with refusals:=pass.refusals + 1}

section
variable [DecidableEq κ] (graph : Dependencies κ α)

def evaluate (resolve : List κ → Pass κ α → α × Pass κ α) : Asking κ α β → Pass κ α → β × Pass κ α
  | .answer value,pass => (value,pass)
  | .ask keys next,pass =>
    let (value,after) := resolve keys pass
    evaluate resolve (next value) after
  | .note _ next,pass => evaluate resolve next pass

def resolveEach (visit : κ → Pass κ α → Option α × Pass κ α) : List κ → List α → Pass κ α → α × Pass κ α
  | [],found,pass => (graph.join found,pass)
  | key :: rest,found,pass =>
    match visit key pass with
    | (none,after) => (graph.fallback,after)
    | (some value,after) => resolveEach visit rest (found ++ [value]) after

-- A value is kept when nothing was refused on the way to it.
def keep (key : κ) (value : α) (before after : Pass κ α) : α × Pass κ α :=
  if graph.keeps value && decide (after.refusals = before.refusals) then
    (graph.mark value,{after with memo:=Dict.put key (graph.mark value) after.memo})
  else (value,after)

def visit (resolve : List κ → List κ → Pass κ α → α × Pass κ α) (stack : List κ) (key : κ) (pass : Pass κ α) :
    Option α × Pass κ α :=
  match graph.node key with
  | none => (none,pass.refuse)
  | some computation =>
    if key ∈ stack ∨ graph.cap ≤ stack.length then (none,pass.refuse)
    else
      match List.lookup key pass.memo with
      | some value => (some value,pass)
      | none =>
        let (value,after) := evaluate (resolve (key :: stack)) computation pass
        let stored := keep graph key value pass after
        (some stored.1,stored.2)

-- The cap on the stack refuses before the rounds run out.
def resolve : Nat → List κ → List κ → Pass κ α → α × Pass κ α
  | 0,_,_,pass => (graph.fallback,pass.refuse)
  | rounds + 1,stack,keys,pass => resolveEach graph (visit graph (resolve rounds) stack) keys [] pass

-- A key's value with no guard, cap or memo, in at most so many levels.
def settleWith (values : κ → Option α) : Asking κ α α → Option α
  | .answer value => some value
  | .ask keys next =>
    match keys.mapM values with
    | none => none
    | some found => settleWith values (next (graph.join found))
  | .note _ next => settleWith values next

def settle : Nat → κ → Option α
  | 0,_ => none
  | levels + 1,key => ((graph.node key).bind (settleWith graph (settle levels))).map graph.stored

-- The cap leaves room for all the keys that are defined.
def Shallow : Prop :=
  ∀ keys : List κ, keys.Nodup → (∀ key ∈ keys, graph.node key ≠ none) → keys.length ≤ graph.cap

-- The walk never meets the cap, and passes every point it notes.
def evaluateFits (resolve : List κ → Pass κ α → α × Pass κ α) (fits : List κ → Pass κ α → Bool) :
    Asking κ α β → Pass κ α → Bool
  | .answer _,_ => true
  | .ask keys next,pass =>
    fits keys pass && evaluateFits resolve fits (next (resolve keys pass).1) (resolve keys pass).2
  | .note fine next,pass => fine && evaluateFits resolve fits next pass

def eachFits (visit : κ → Pass κ α → Option α × Pass κ α) (fits : κ → Pass κ α → Bool) : List κ → Pass κ α → Bool
  | [],_ => true
  | key :: rest,pass => fits key pass &&
    match visit key pass with
    | (none,_) => true
    | (some _,after) => eachFits visit fits rest after

def visitFits (resolve : List κ → List κ → Pass κ α → α × Pass κ α) (fits : List κ → List κ → Pass κ α → Bool)
    (stack : List κ) (key : κ) (pass : Pass κ α) : Bool :=
  match graph.node key with
  | none => true
  | some computation => decide (key ∈ stack) || (decide (stack.length < graph.cap) &&
    ((List.lookup key pass.memo).isSome ||
      evaluateFits (resolve (key :: stack)) (fits (key :: stack)) computation pass))

def fits : Nat → List κ → List κ → Pass κ α → Bool
  | 0,_,_,_ => false
  | rounds + 1,stack,keys,pass =>
    eachFits (visit graph (resolve graph rounds) stack) (visitFits graph (resolve graph rounds) (fits rounds) stack)
      keys pass

end

section
variable {graph : Dependencies κ α}

theorem settleWith_ask (keys : List κ) (next : α → Asking κ α α) :
    settleWith graph values (.ask keys next) = (keys.mapM values).bind fun found => settleWith graph values
    (next (graph.join found)) := by
  cases found : keys.mapM values <;> simp only [settleWith,found,Option.bind]

theorem mapM_some_mono (grows : ∀ key value, values key = some value → more key = some value) :
    ∀ (keys : List κ) (found : List α), keys.mapM values = some found → keys.mapM more = some found := by
  intro keys
  induction keys with
  | nil => intro found settled; simpa using settled
  | cons key rest ih =>
    intro found settled
    simp only [mapM_cons,Option.bind_eq_bind,Option.pure_def,Option.bind_eq_some_iff,Option.some.injEq] at settled ⊢
    obtain ⟨value,first,others,remaining,joined⟩ := settled
    exact ⟨value,grows key value first,others,ih others remaining,joined⟩

theorem settleWith_mono (grows : ∀ key value, values key = some value → more key = some value)
    (computation : Asking κ α α) (value : α) (settled : settleWith graph values computation = some value) :
    settleWith graph more computation = some value := by
  induction computation with
  | answer given => exact settled
  | ask keys next ih =>
    rw [settleWith_ask,Option.bind_eq_some_iff] at settled ⊢
    obtain ⟨found,asked,continued⟩ := settled
    exact ⟨found,mapM_some_mono grows keys found asked,ih _ continued⟩
  | note fine next ih => exact ih settled

theorem settle_eq_some : settle graph (levels + 1) key = some value ↔
    ∃ computation raw, graph.node key = some computation ∧
      settleWith graph (settle graph levels) computation = some raw ∧ graph.stored raw = value := by
  rw [settle,Option.map_eq_some_iff]
  constructor
  · rintro ⟨raw,found,same⟩
    obtain ⟨computation,defined,computed⟩ := Option.bind_eq_some_iff.mp found
    exact ⟨computation,raw,defined,computed,same⟩
  · rintro ⟨computation,raw,defined,computed,same⟩
    exact ⟨raw,Option.bind_eq_some_iff.mpr ⟨computation,defined,computed⟩,same⟩

theorem settle_step (key : κ) (value : α) (settled : settle graph levels key = some value) :
    settle graph (levels + 1) key = some value := by
  induction levels generalizing key value with
  | zero => cases settled
  | succ levels ih =>
    rw [settle_eq_some] at settled ⊢
    obtain ⟨computation,raw,defined,computed,same⟩ := settled
    exact ⟨computation,raw,defined,settleWith_mono ih computation raw computed,same⟩

theorem settle_mono (within : levels ≤ more) (settled : settle graph levels key = some value) :
    settle graph more key = some value := by
  induction within with
  | refl => exact settled
  | step _ ih => exact settle_step key value ih

theorem settle_unique (settled : settle graph levels key = some value) (again : settle graph others key = some other) :
    value = other := by
  have first := settle_mono (le_max_left levels others) settled
  have second := settle_mono (le_max_right levels others) again
  rw [first] at second
  exact Option.some.inj second

theorem settle_least (settled : settle graph levels key = some value) :
    ∃ below computation raw, below < levels ∧ graph.node key = some computation ∧ settle graph below key = none ∧
      settleWith graph (settle graph below) computation = some raw ∧ graph.stored raw = value := by
  induction levels with
  | zero => cases settled
  | succ levels ih =>
    cases earlier : settle graph levels key with
    | some found =>
      have same := settle_unique earlier settled
      subst same
      obtain ⟨below,computation,raw,less,rest⟩ := ih earlier
      exact ⟨below,computation,raw,Nat.lt_succ_of_lt less,rest⟩
    | none =>
      obtain ⟨computation,raw,defined,computed,same⟩ := settle_eq_some.mp settled
      exact ⟨levels,computation,raw,Nat.lt_succ_self levels,defined,earlier,computed,same⟩

section
variable {visit : κ → Pass κ α → Option α × Pass κ α} {pass after : Pass κ α} {rest : List κ} {found : List α}

theorem resolveEach_refused (refused : visit key pass = (none,after)) :
    resolveEach graph visit (key :: rest) found pass = (graph.fallback,after) := by
  rw [resolveEach,refused]

theorem resolveEach_found (visited : visit key pass = (some value,after)) :
    resolveEach graph visit (key :: rest) found pass = resolveEach graph visit rest (found ++ [value]) after := by
  rw [resolveEach,visited]

end

-- A walk that never meets the cap goes the same way under a larger one.
theorem evaluate_wide {resolve wide : List κ → Pass κ α → α × Pass κ α}
    (same : ∀ keys pass, fit keys pass = true → resolve keys pass = wide keys pass) (computation : Asking κ α β)
    (pass : Pass κ α) (within : evaluateFits resolve fit computation pass = true) :
    evaluate resolve computation pass = evaluate wide computation pass := by
  induction computation generalizing pass with
  | answer value => rfl
  | ask keys next ih =>
    rw [evaluateFits,Bool.and_eq_true] at within
    rw [evaluate,evaluate,← same keys pass within.1]
    exact ih _ _ within.2
  | note fine next ih =>
    rw [evaluateFits,Bool.and_eq_true] at within
    exact ih pass within.2

theorem resolveEach_wide {visit wide : κ → Pass κ α → Option α × Pass κ α}
    (same : ∀ key pass, fit key pass = true → visit key pass = wide key pass) (keys : List κ) (found : List α)
    (pass : Pass κ α) (within : eachFits visit fit keys pass = true) :
    resolveEach graph visit keys found pass = resolveEach {graph with cap:=wider} wide keys found pass := by
  induction keys generalizing found pass with
  | nil => rfl
  | cons key rest ih =>
    rw [eachFits,Bool.and_eq_true] at within
    obtain ⟨here,further⟩ := within
    have again := (same key pass here).symm
    cases visited : visit key pass with
    | mk answer after =>
      rw [visited] at further again
      cases answer with
      | none => rw [resolveEach_refused visited,resolveEach_refused again]
      | some value =>
        rw [resolveEach_found visited,resolveEach_found again]
        exact ih _ after further

def Settles (graph : Dependencies κ α) (keys : List κ) (found : List α) : Prop :=
  ∃ levels, keys.mapM (settle graph levels) = some found

theorem Settles.cons (first : settle graph levels key = some value)
    (others : Settles graph rest found) : Settles graph (key :: rest) (value :: found) := by
  obtain ⟨more,settled⟩ := others
  refine ⟨max levels more,?_⟩
  rw [mapM_cons,settle_mono (le_max_left levels more) first,
    mapM_some_mono (fun _ _ => settle_mono (le_max_right levels more)) rest found settled]
  rfl

theorem open_below (less : below < levels) (unsettled : settle graph below key = none)
    (opened : ∀ key ∈ stack, settle graph levels key = none) : ∀ other ∈ key :: stack,
    settle graph below other = none := by
  intro other under
  rcases mem_cons.mp under with same | further
  · rw [same]
    exact unsettled
  · cases early : settle graph below other with
    | none => rfl
    | some value =>
      have late := settle_mono (Nat.le_of_lt less) early
      rw [opened other further] at late
      cases late

-- The keys being evaluated, newest first.
structure Walk (graph : Dependencies κ α) (stack : List κ) : Prop where
  nodup : stack.Nodup
  defined : ∀ key ∈ stack, graph.node key ≠ none

theorem Walk.start : Walk graph [] := ⟨nodup_nil,fun _ member => absurd member not_mem_nil⟩

theorem Walk.push (walk : Walk graph stack) (fresh : key ∉ stack) (defined : graph.node key = some computation) :
    Walk graph (key :: stack) where
  nodup := nodup_cons.mpr ⟨fresh,walk.nodup⟩
  defined other member := by
    rcases mem_cons.mp member with same | below
    · rw [same,defined]
      exact Option.some_ne_none computation
    · exact walk.defined other below

theorem Walk.room (shallow : Shallow graph) (walk : Walk graph (key :: stack)) : ¬ graph.cap ≤ stack.length := by
  have short := shallow (key :: stack) walk.nodup walk.defined
  rw [length_cons] at short
  omega

end

section
variable [DecidableEq κ] {graph : Dependencies κ α}

def Valid (graph : Dependencies κ α) (pass : Pass κ α) : Prop :=
  ∀ key value, List.lookup key pass.memo = some value → ∃ levels, settle graph levels key = some value

theorem Valid.start : Valid graph {} := by
  intro key value found
  cases found

theorem Valid.refuse (valid : Valid graph sweep) : Valid graph sweep.refuse := valid

-- What a stretch of the pass leaves: a valid memo, settled unless a key was refused.
structure Sound (graph : Dependencies κ α) (pass after : Pass κ α) (settled : Prop) : Prop where
  valid : Valid graph after
  refusals : pass.refusals ≤ after.refusals
  settles : after.refusals = pass.refusals → settled

theorem Sound.refused (valid : Valid graph sweep) (settled : Prop) : Sound graph sweep sweep.refuse settled where
  valid := valid.refuse
  refusals := Nat.le_succ _
  settles same := absurd same (Nat.succ_ne_self _)

theorem Sound.then {pass middle after : Pass κ α} (before : Sound graph pass middle first)
    (later : Sound graph middle after second) (joined : first → second → both) : Sound graph pass after both where
  valid := later.valid
  refusals := le_trans before.refusals later.refusals
  settles same := by
    have unmoved : middle.refusals = pass.refusals := le_antisymm (same ▸ later.refusals) before.refusals
    exact joined (before.settles unmoved) (later.settles (same.trans unmoved.symm))

theorem evaluate_sound {resolve : List κ → Pass κ α → α × Pass κ α} (resolves : ∀ keys pass, Valid graph pass →
    Sound graph pass (resolve keys pass).2
      (∃ found, Settles graph keys found ∧ (resolve keys pass).1 = graph.join found))
    (computation : Asking κ α α) (pass : Pass κ α) (valid : Valid graph pass) : Sound graph pass
    (evaluate resolve computation pass).2
      (∃ levels, settleWith graph (settle graph levels) computation = some (evaluate resolve computation pass).1) :=
        by
  induction computation generalizing pass with
  | answer value => exact ⟨valid,le_refl _,fun _ => ⟨0,rfl⟩⟩
  | ask keys next ih =>
    have asked := resolves keys pass valid
    refine asked.then (ih _ _ asked.valid) ?_
    rintro ⟨found,⟨levels,settled⟩,value⟩ ⟨more,continued⟩
    refine ⟨max levels more,?_⟩
    rw [settleWith_ask,mapM_some_mono (fun _ _ => settle_mono (le_max_left levels more)) keys found settled]
    rw [value] at continued
    simp only [Option.bind,evaluate,value]
    exact settleWith_mono (fun _ _ => settle_mono (le_max_right levels more)) _ _ continued
  | note fine next ih => exact ih pass valid

theorem keep_kept {pass after : Pass κ α} (same : after.refusals = pass.refusals) :
    (keep graph key value pass after).1 = graph.stored value := by
  unfold keep Dependencies.stored
  rw [decide_eq_true same,Bool.and_true]
  split <;> rfl

theorem keep_refused {pass after : Pass κ α} (moved : after.refusals ≠ pass.refusals) :
    keep graph key value pass after = (value,after) := by
  unfold keep
  rw [decide_eq_false moved,Bool.and_false]
  rfl

theorem keep_valid {pass after : Pass κ α} (valid : Valid graph after)
    (settles : after.refusals = pass.refusals → ∃ levels, settle graph levels key = some (graph.stored value)) :
    Valid graph (keep graph key value pass after).2 := by
  unfold keep
  split
  · rename_i kept
    rw [Bool.and_eq_true,decide_eq_true_eq] at kept
    intro other found held
    by_cases same : other = key
    · subst same
      rw [Dict.lookup_put,if_pos rfl] at held
      cases held
      have stored := settles kept.2
      rwa [Dependencies.stored,if_pos kept.1] at stored
    · rw [Dict.lookup_put,if_neg same] at held
      exact valid other found held
  · exact valid

theorem keep_refusals (key : κ) (pass after : Pass κ α) :
    (keep graph key value pass after).2.refusals = after.refusals := by
  unfold keep
  split <;> rfl

theorem visit_sound {resolve : List κ → List κ → Pass κ α → α × Pass κ α}
    (resolves : ∀ stack keys pass, Valid graph pass →
    Sound graph pass (resolve stack keys pass).2
      (∃ found, Settles graph keys found ∧ (resolve stack keys pass).1 = graph.join found))
    (stack : List κ) (key : κ) (pass : Pass κ α) (valid : Valid graph pass) : Sound graph pass
    (visit graph resolve stack key pass).2
      (∃ value levels, (visit graph resolve stack key pass).1 = some value ∧ settle graph levels key = some value) :=
        by
  unfold visit
  cases defined : graph.node key with
  | none => exact Sound.refused valid _
  | some computation =>
    dsimp only
    split
    · exact Sound.refused valid _
    · cases held : List.lookup key pass.memo with
      | some value =>
        refine ⟨valid,le_refl _,fun _ => ?_⟩
        obtain ⟨levels,settled⟩ := valid key value held
        exact ⟨value,levels,rfl,settled⟩
      | none =>
        have evaluated := evaluate_sound (resolves (key :: stack)) computation pass valid
        have settles : (evaluate (resolve (key :: stack)) computation pass).2.refusals = pass.refusals →
          ∃ levels, settle graph levels key =
            some (graph.stored (evaluate (resolve (key :: stack)) computation pass).1) := by
          intro same
          obtain ⟨levels,settled⟩ := evaluated.settles same
          exact ⟨levels + 1,settle_eq_some.mpr ⟨computation,_,defined,settled,rfl⟩⟩
        refine ⟨keep_valid evaluated.valid settles,?_,?_⟩
        · exact le_of_le_of_eq evaluated.refusals (keep_refusals key pass _).symm
        · intro same
          have unmoved := (keep_refusals key pass _).symm.trans same
          obtain ⟨levels,settled⟩ := settles unmoved
          exact ⟨_,levels,congrArg some (keep_kept unmoved),settled⟩

theorem resolveEach_sound {visit : κ → Pass κ α → Option α × Pass κ α} (visits : ∀ key pass, Valid graph pass →
    Sound graph pass (visit key pass).2
      (∃ value levels, (visit key pass).1 = some value ∧ settle graph levels key = some value))
    (keys : List κ) (found : List α) (pass : Pass κ α) (valid : Valid graph pass) :
    Sound graph pass (resolveEach graph visit keys found pass).2
      (∃ more, Settles graph keys more ∧ (resolveEach graph visit keys found pass).1 = graph.join (found ++ more)) := by
  induction keys generalizing found pass with
  | nil => exact ⟨valid,le_refl _,fun _ => ⟨[],⟨0,rfl⟩,by rw [append_nil]; rfl⟩⟩
  | cons key rest ih =>
    have first := visits key pass valid
    cases visited : visit key pass with
    | mk answer after =>
      rw [visited] at first
      cases answer with
      | none =>
        rw [resolveEach_refused visited]
        refine ⟨first.valid,first.refusals,fun same => ?_⟩
        obtain ⟨_,_,impossible,_⟩ := first.settles same
        cases impossible
      | some value =>
        rw [resolveEach_found visited]
        refine first.then (ih (found ++ [value]) after first.valid) ?_
        rintro ⟨_,levels,same,settled⟩ ⟨more,others,joined⟩
        cases same
        exact ⟨value :: more,Settles.cons settled others,by rw [joined,append_assoc]; rfl⟩

theorem resolve_sound (rounds : Nat) (stack keys : List κ) (pass : Pass κ α) (valid : Valid graph pass) :
    Sound graph pass (resolve graph rounds stack keys pass).2
      (∃ found, Settles graph keys found ∧ (resolve graph rounds stack keys pass).1 = graph.join found) := by
  induction rounds generalizing stack keys pass with
  | zero => exact Sound.refused valid _
  | succ rounds ih => exact resolveEach_sound (visit_sound ih stack) keys [] pass valid

section
variable {resolve : List κ → List κ → Pass κ α → α × Pass κ α}

theorem visit_miss (shallow : Shallow graph) (walk : Walk graph (key :: stack))
    (defined : graph.node key = some computation) (missing : List.lookup key sweep.memo = none)
    (ran : evaluate (resolve (key :: stack)) computation sweep = (value,moved)) :
    visit graph resolve stack key sweep =
      (some (keep graph key value sweep moved).1,(keep graph key value sweep moved).2) := by
  have fresh : key ∉ stack := (nodup_cons.mp walk.nodup).1
  unfold visit
  rw [defined]
  dsimp only
  rw [if_neg (not_or.mpr ⟨fresh,walk.room shallow⟩),missing]
  dsimp only
  rw [ran]

theorem visit_hit (shallow : Shallow graph) (walk : Walk graph (key :: stack))
    (defined : graph.node key = some computation) (held : List.lookup key sweep.memo = some value) :
    visit graph resolve stack key sweep = (some value,sweep) := by
  have fresh : key ∉ stack := (nodup_cons.mp walk.nodup).1
  unfold visit
  rw [defined]
  dsimp only
  rw [if_neg (not_or.mpr ⟨fresh,walk.room shallow⟩),held]

theorem visit_again (pass : Pass κ α)
    (again : key ∈ stack) : (visit graph resolve stack key pass).1 = none := by
  unfold visit
  cases graph.node key with
  | none => rfl
  | some computation =>
    dsimp only
    rw [if_pos (.inl again)]

theorem visit_undefined (pass : Pass κ α)
    (undefined : graph.node key = none) : (visit graph resolve stack key pass).1 = none := by
  unfold visit
  rw [undefined]

end

theorem evaluate_settled {resolve : List κ → Pass κ α → α × Pass κ α}
    (keeps : ∀ keys pass, Valid graph pass → Valid graph (resolve keys pass).2)
    (resolves : ∀ keys found pass, Valid graph pass → keys.mapM (settle graph levels) = some found →
      (resolve keys pass).1 = graph.join found ∧ (resolve keys pass).2.refusals = pass.refusals)
    (computation : Asking κ α α) (value : α) (pass : Pass κ α) (valid : Valid graph pass)
    (settled : settleWith graph (settle graph levels) computation = some value) :
    (evaluate resolve computation pass).1 = value ∧
      (evaluate resolve computation pass).2.refusals = pass.refusals := by
  induction computation generalizing pass with
  | answer given => exact ⟨Option.some.inj settled,rfl⟩
  | ask keys next ih =>
    rw [settleWith_ask,Option.bind_eq_some_iff] at settled
    obtain ⟨found,first,continued⟩ := settled
    obtain ⟨answered,unmoved⟩ := resolves keys found pass valid first
    simp only [evaluate,answered]
    obtain ⟨same,still⟩ := ih _ _ (keeps keys pass valid) continued
    exact ⟨same,still.trans unmoved⟩
  | note fine next ih => exact ih pass valid settled

theorem resolveEach_settled {visit : κ → Pass κ α → Option α × Pass κ α}
    (keeps : ∀ key pass, Valid graph pass → Valid graph (visit key pass).2)
    (keys : List κ) (visits : ∀ key ∈ keys, ∀ value pass, Valid graph pass → settle graph levels key = some value →
      (visit key pass).1 = some value ∧ (visit key pass).2.refusals = pass.refusals)
    (found more : List α) (pass : Pass κ α) (valid : Valid graph pass)
    (settled : keys.mapM (settle graph levels) = some more) :
    (resolveEach graph visit keys found pass).1 = graph.join (found ++ more) ∧
      (resolveEach graph visit keys found pass).2.refusals = pass.refusals := by
  induction keys generalizing found more pass with
  | nil =>
    rw [mapM_nil] at settled
    cases settled
    rw [append_nil]
    exact ⟨rfl,rfl⟩
  | cons key rest ih =>
    simp only [mapM_cons,Option.bind_eq_bind,Option.pure_def,Option.bind_eq_some_iff,Option.some.injEq] at settled
    obtain ⟨value,first,others,remaining,joined⟩ := settled
    obtain ⟨answered,unmoved⟩ := visits key mem_cons_self value pass valid first
    have kept := keeps key pass valid
    cases visited : visit key pass with
    | mk answer after =>
      rw [visited] at answered kept unmoved
      cases answered
      have inRest := fun other member => visits other (mem_cons_of_mem key member)
      obtain ⟨same,still⟩ := ih inRest (found ++ [value]) others after kept remaining
      rw [resolveEach_found visited,same,append_assoc,← joined]
      exact ⟨rfl,still.trans unmoved⟩

theorem visit_keeps (rounds : Nat) (stack : List κ) (key : κ) (pass : Pass κ α) (valid : Valid graph pass) :
    Valid graph (visit graph (resolve graph rounds) stack key pass).2 :=
  (visit_sound (resolve_sound rounds) stack key pass valid).valid

-- Keys that settle while the stack stays open get their values, whatever the
-- memo holds, and nothing is refused on the way.
def ResolvesSettled (graph : Dependencies κ α) (rounds : Nat) : Prop :=
  ∀ (stack keys : List κ) (levels : Nat) (found : List α) (pass : Pass κ α), Walk graph stack →
    graph.cap < rounds + stack.length → (∀ key ∈ stack, settle graph levels key = none) → Valid graph pass →
    keys.mapM (settle graph levels) = some found →
    (resolve graph rounds stack keys pass).1 = graph.join found ∧
      (resolve graph rounds stack keys pass).2.refusals = pass.refusals

theorem visit_settled (shallow : Shallow graph) (resolves : ResolvesSettled graph rounds) (walk : Walk graph stack)
    (room : graph.cap < rounds + 1 + stack.length) (opened : ∀ key ∈ stack, settle graph levels key = none)
    (valid : Valid graph sweep) (settled : settle graph levels key = some value) :
    (visit graph (resolve graph rounds) stack key sweep).1 = some value ∧
      (visit graph (resolve graph rounds) stack key sweep).2.refusals = sweep.refusals := by
  -- The keys below are settled in fewer levels than this one, and it stays open there.
  obtain ⟨below,computation,raw,less,defined,unsettled,computed,stored⟩ := settle_least settled
  have fresh : key ∉ stack := fun again => by rw [opened key again] at settled; cases settled
  have pushed := walk.push fresh defined
  cases held : List.lookup key sweep.memo with
  | some kept =>
    obtain ⟨others,agreed⟩ := valid key kept held
    rw [visit_hit shallow pushed defined held,settle_unique agreed settled]
    exact ⟨rfl,rfl⟩
  | none =>
    obtain ⟨same,unmoved⟩ := evaluate_settled
      (fun keys sweep valid => (resolve_sound rounds (key :: stack) keys sweep valid).valid)
      (fun inside more sweep valid settled => resolves (key :: stack) inside below more sweep pushed
        (by rw [length_cons]; omega) (open_below less unsettled opened) valid settled)
      computation raw sweep valid computed
    rw [visit_miss shallow pushed defined held rfl,keep_kept unmoved,keep_refusals,same,stored]
    exact ⟨rfl,unmoved⟩

theorem resolve_settled (shallow : Shallow graph) (rounds : Nat) : ResolvesSettled graph rounds := by
  induction rounds with
  | zero =>
    intro stack keys levels found pass walk room
    have short := shallow stack walk.nodup walk.defined
    omega
  | succ rounds ih =>
    intro stack keys levels found pass walk room opened valid settled
    refine resolveEach_settled (visit_keeps rounds stack) keys ?_ [] found pass valid settled
    intro key member value pass valid settles
    exact visit_settled shallow ih walk room opened valid settles

theorem evaluate_same {resolve : List κ → Pass κ α → α × Pass κ α}
    (keeps : ∀ keys pass, Valid graph pass → Valid graph (resolve keys pass).2)
    (same : ∀ keys pass other, Valid graph pass → Valid graph other → (resolve keys pass).1 = (resolve keys other).1)
    (computation : Asking κ α α) (pass other : Pass κ α) (valid : Valid graph pass) (otherValid : Valid graph other) :
    (evaluate resolve computation pass).1 = (evaluate resolve computation other).1 := by
  induction computation generalizing pass other with
  | answer given => rfl
  | ask keys next ih =>
    have answered := same keys pass other valid otherValid
    simp only [evaluate,answered]
    exact ih _ _ _ (keeps keys pass valid) (keeps keys other otherValid)
  | note fine next ih => exact ih pass other valid otherValid

theorem resolveEach_same {visit : κ → Pass κ α → Option α × Pass κ α}
    (keeps : ∀ key pass, Valid graph pass → Valid graph (visit key pass).2)
    (keys : List κ) (same : ∀ key ∈ keys, ∀ pass other, Valid graph pass → Valid graph other →
      (visit key pass).1 = (visit key other).1)
    (found : List α) (pass other : Pass κ α) (valid : Valid graph pass) (otherValid : Valid graph other) :
    (resolveEach graph visit keys found pass).1 = (resolveEach graph visit keys found other).1 := by
  induction keys generalizing found pass other with
  | nil => rfl
  | cons key rest ih =>
    have answered := same key mem_cons_self pass other valid otherValid
    have kept := keeps key pass valid
    have otherKept := keeps key other otherValid
    cases visited : visit key pass with
    | mk answer after =>
      cases again : visit key other with
      | mk otherAnswer otherAfter =>
        rw [visited,again] at answered
        rw [visited] at kept
        rw [again] at otherKept
        cases answered
        cases answer with
        | none => rw [resolveEach_refused visited,resolveEach_refused again]
        | some value =>
          rw [resolveEach_found visited,resolveEach_found again]
          exact ih (forall_mem_cons.mp same).2 _ after otherAfter kept otherKept

-- A key that never settles is refused on its way in every pass, so its value is
-- never kept.
theorem visit_unsettled (shallow : Shallow graph) (walk : Walk graph (key :: stack))
    (defined : graph.node key = some computation) (never : ∀ levels, settle graph levels key = none)
    (valid : Valid graph sweep) :
    (visit graph (resolve graph rounds) stack key sweep).1 =
      some (evaluate (resolve graph rounds (key :: stack)) computation sweep).1 := by
  have missing : List.lookup key sweep.memo = none := by
    cases held : List.lookup key sweep.memo with
    | none => rfl
    | some value =>
      obtain ⟨levels,settled⟩ := valid key value held
      rw [never levels] at settled
      cases settled
  have evaluated := evaluate_sound (resolve_sound rounds (key :: stack)) computation sweep valid
  rw [visit_miss shallow walk defined missing rfl,keep_refused]
  intro unmoved
  obtain ⟨levels,settled⟩ := evaluated.settles unmoved
  have stored := settle_eq_some.mpr ⟨computation,_,defined,settled,rfl⟩
  rw [never (levels + 1)] at stored
  cases stored

theorem visit_same (shallow : Shallow graph)
    (same : ∀ keys sweep other, Walk graph (key :: stack) →
      (∀ under ∈ key :: stack, ∀ levels, settle graph levels under = none) → Valid graph sweep → Valid graph other →
      (resolve graph rounds (key :: stack) keys sweep).1 = (resolve graph rounds (key :: stack) keys other).1)
    (walk : Walk graph stack) (room : graph.cap < rounds + 1 + stack.length)
    (opened : ∀ key ∈ stack, ∀ levels, settle graph levels key = none) (valid : Valid graph sweep)
    (otherValid : Valid graph other) :
    (visit graph (resolve graph rounds) stack key sweep).1 =
      (visit graph (resolve graph rounds) stack key other).1 := by
  cases defined : graph.node key with
  | none => rw [visit_undefined sweep defined,visit_undefined other defined]
  | some computation =>
    by_cases again : key ∈ stack
    · rw [visit_again sweep again,visit_again other again]
    have pushed := walk.push again defined
    by_cases settles : ∃ levels value, settle graph levels key = some value
    · obtain ⟨levels,value,settled⟩ := settles
      have answers := fun sweep (valid : Valid graph sweep) => visit_settled shallow
        (resolve_settled shallow rounds) walk room (fun key member => opened key member levels) valid settled
      rw [(answers sweep valid).1,(answers other otherValid).1]
    · have never : ∀ levels, settle graph levels key = none := by
        intro levels
        cases found : settle graph levels key with
        | none => rfl
        | some value => exact absurd ⟨levels,value,found⟩ settles
      rw [visit_unsettled shallow pushed defined never valid,visit_unsettled shallow pushed defined never otherValid]
      refine congrArg some (evaluate_same (fun keys sweep valid => (resolve_sound rounds _ keys sweep valid).valid) ?_
        computation sweep other valid otherValid)
      intro keys sweep other valid otherValid
      refine same keys sweep other pushed ?_ valid otherValid
      intro under member
      rcases mem_cons.mp member with this | further
      · rw [this]
        exact never
      · exact opened under further

theorem resolve_same (shallow : Shallow graph) (rounds : Nat) (stack keys : List κ) (pass other : Pass κ α)
    (walk : Walk graph stack) (room : graph.cap < rounds + stack.length)
    (opened : ∀ key ∈ stack, ∀ levels, settle graph levels key = none) (valid : Valid graph pass)
    (otherValid : Valid graph other) :
    (resolve graph rounds stack keys pass).1 = (resolve graph rounds stack keys other).1 := by
  induction rounds generalizing stack keys pass other with
  | zero => rfl
  | succ rounds ih =>
    refine resolveEach_same (visit_keeps rounds stack) keys ?_ [] pass other valid otherValid
    intro key member pass other valid otherValid
    refine visit_same shallow ?_ walk room opened valid otherValid
    intro keys pass other pushed opened valid otherValid
    exact ih (key :: stack) keys pass other pushed (by rw [length_cons]; omega) opened valid otherValid

def start (graph : Dependencies κ α) (computation : Asking κ α α) (pass : Pass κ α) : α × Pass κ α :=
  evaluate (resolve graph (graph.cap + 1) []) computation pass

def startFits (graph : Dependencies κ α) (computation : Asking κ α α) (pass : Pass κ α) : Bool :=
  evaluateFits (resolve graph (graph.cap + 1) []) (fits graph (graph.cap + 1) []) computation pass

theorem start_valid (computation : Asking κ α α) (pass : Pass κ α) (valid : Valid graph pass) :
    Valid graph (start graph computation pass).2 :=
  (evaluate_sound (resolve_sound (graph.cap + 1) []) computation pass valid).valid

theorem start_same (shallow : Shallow graph) (computation : Asking κ α α) (pass other : Pass κ α)
    (valid : Valid graph pass)
    (otherValid : Valid graph other) : (start graph computation pass).1 = (start graph computation other).1 := by
  refine evaluate_same (fun keys pass valid => (resolve_sound _ _ keys pass valid).valid) ?_
    computation pass other valid otherValid
  intro keys pass other valid otherValid
  refine resolve_same shallow (graph.cap + 1) [] keys pass other Walk.start (Nat.lt_succ_self _) ?_ valid otherValid
  intro key member
  cases member

theorem resolve_wide (room : graph.cap ≤ wider) (longer : rounds ≤ more) (stack keys : List κ) (pass : Pass κ α)
    (within : fits graph rounds stack keys pass = true) :
    resolve graph rounds stack keys pass = resolve {graph with cap:=wider} more stack keys pass := by
  induction rounds generalizing more stack keys pass with
  | zero => cases within
  | succ rounds ih =>
    obtain ⟨more,rfl⟩ := Nat.exists_eq_succ_of_ne_zero (show more ≠ 0 by omega)
    refine resolveEach_wide (fun key pass fit => ?_) keys [] pass within
    unfold visitFits at fit
    unfold visit
    dsimp only
    cases defined : graph.node key with
    | none => rfl
    | some computation =>
      rw [defined] at fit
      simp only [Bool.or_eq_true,Bool.and_eq_true,decide_eq_true_eq] at fit
      dsimp only
      rcases fit with again | ⟨short,known⟩
      · rw [if_pos (.inl again),if_pos (.inl again)]
      by_cases again : key ∈ stack
      · rw [if_pos (.inl again),if_pos (.inl again)]
      rw [if_neg (not_or.mpr ⟨again,Nat.not_le.mpr short⟩),
        if_neg (not_or.mpr ⟨again,Nat.not_le.mpr (Nat.lt_of_lt_of_le short room)⟩)]
      cases held : List.lookup key pass.memo with
      | some value => rfl
      | none =>
        rw [held] at known
        have fitting := known.resolve_left Bool.false_ne_true
        have same : evaluate (resolve graph rounds (key :: stack)) computation pass =
          evaluate (resolve {graph with cap:=wider} more (key :: stack)) computation pass :=
          evaluate_wide (fun keys pass fit => ih (by omega) (key :: stack) keys pass fit) computation pass fitting
        dsimp only
        rw [same]
        rfl

theorem start_wide (room : graph.cap ≤ wider) (computation : Asking κ α α) (pass : Pass κ α)
    (within : startFits graph computation pass = true) :
    start graph computation pass = start {graph with cap:=wider} computation pass :=
  evaluate_wide (fun keys pass fit => resolve_wide room (Nat.succ_le_succ room) [] keys pass fit)
    computation pass within

end

end Psat.General.Memo
