namespace Psat.General.Runs

section
variable {σ ε : Type} {step : σ → ε → Option σ}

-- A run of a machine whose steps may be refused.
def run (step : σ → ε → Option σ) (state : σ) (events : List ε) : Option σ := events.foldlM step state

-- Every step of the run is taken in a state that meets the condition.
def Throughout (step : σ → ε → Option σ) (meets : σ → ε → Prop) (state : σ) (events : List ε) : Prop :=
  ∀ before event rest, events = before ++ event :: rest → ∀ middle, run step state before = some middle →
    meets middle event

theorem run_cons (state : σ) (event : ε) (rest : List ε) :
    run step state (event :: rest) = (step state event).bind fun next => run step next rest := rfl

theorem run_append (state : σ) (first second : List ε) :
    run step state (first ++ second) = (run step state first).bind fun middle => run step middle second :=
  List.foldlM_append

variable {meets : σ → ε → Prop}

theorem Throughout.nil : Throughout step meets state [] := by
  intro before event rest split
  cases before <;> cases split

theorem Throughout.cons (first : meets state event)
    (later : ∀ next, step state event = some next → Throughout step meets next rest) :
    Throughout step meets state (event :: rest) := by
  intro before other others split middle reached
  cases before with
  | nil =>
    obtain ⟨rfl,rfl⟩ := List.cons.inj split
    cases reached
    exact first
  | cons head before =>
    obtain ⟨rfl,rfl⟩ := List.cons.inj split
    obtain ⟨next,stepped,reached⟩ := Option.bind_eq_some_iff.mp reached
    exact later next stepped before other others rfl middle reached

theorem Throughout.before (met : Throughout step meets state (first ++ second)) : Throughout step meets state first :=
    by
  intro before event rest split middle reached
  exact met before event (rest ++ second) (by rw [split]; simp) middle reached

theorem Throughout.after (met : Throughout step meets state (first ++ second))
    (reached : run step state first = some middle) :
    Throughout step meets middle second := by
  intro before event rest split last ran
  refine met (first ++ before) event rest (by rw [split,List.append_assoc]) last ?_
  rw [run_append,reached]
  exact ran

theorem Throughout.head
    (met : Throughout step meets state (event :: rest)) : meets state event := met [] event rest rfl state rfl

theorem Throughout.tail
    (met : Throughout step meets state (event :: rest)) (stepped : step state event = some next) :
    Throughout step meets next rest :=
  .after (show Throughout step meets state ([event] ++ rest) from met) (by rw [run_cons,stepped]; rfl)

-- A condition that can be tested is tested along the run.
def check (step : σ → ε → Option σ) (meets : σ → ε → Bool) : σ → List ε → Bool
  | _, [] => true
  | state, event :: rest => meets state event && ((step state event).all fun next => check step meets next rest)

theorem Throughout.of_check {meets : σ → ε → Bool} (events : List ε) :
    ∀ {state : σ}, check step meets state events = true →
    Throughout step (fun state event => meets state event = true) state events := by
  induction events with
  | nil => exact fun _ => .nil
  | cons event rest ih =>
    intro state checked
    rw [check,Bool.and_eq_true] at checked
    refine .cons checked.1 fun next stepped => ih ?_
    have later := checked.2
    rw [stepped] at later
    exact later

theorem run_keeps {holds : σ → Prop}
    (kept : ∀ {state next : σ} {event : ε}, step state event = some next → meets state event → holds state → holds next)
    (events : List ε) : ∀ {state final : σ}, run step state events = some final → Throughout step meets state events →
    holds state → holds final := by
  induction events with
  | nil =>
    intro state final ran _ start
    cases ran
    exact start
  | cons event rest ih =>
    intro state final ran met start
    obtain ⟨next,stepped,ran⟩ := Option.bind_eq_some_iff.mp ran
    exact ih ran (met.tail stepped) (kept stepped met.head start)

end

end Psat.General.Runs
