namespace Psat.General.Loop

-- A loop whose body says when it is over, for at most so many rounds.
def run (body : σ → Option σ) : Nat → σ → σ
  | 0,s => s
  | fuel + 1,s =>
    match body s with
    | none => s
    | some s' => run body fuel s'

-- With a measure that every round lowers, enough rounds end the loop.
theorem run_ends (keeps : σ → Prop) (measure : σ → Nat)
    (round : ∀ s s', keeps s → body s = some s' → keeps s' ∧ measure s' < measure s) :
    ∀ fuel s, keeps s → measure s ≤ fuel → keeps (run body fuel s) ∧ body (run body fuel s) = none := by
  intro fuel
  induction fuel with
  | zero =>
    intro s kept bounded
    refine ⟨kept,?_⟩
    cases next : body s with
    | none => exact next
    | some s' =>
      have lower := (round s s' kept next).2
      omega
  | succ fuel ih =>
    intro s kept bounded
    unfold run
    cases next : body s with
    | none => exact ⟨kept,next⟩
    | some s' =>
      obtain ⟨kept',lower⟩ := round s s' kept next
      exact ih s' kept' (by omega)

theorem run_related (related : σ → τ → Prop)
    (steps : ∀ s t s', related s t → body s = some s' → ∃ t', other t = some t' ∧ related s' t')
    (ends : ∀ s t, related s t → body s = none → other t = none) (fuel : Nat) :
    ∀ s t, related s t → related (run body fuel s) (run other fuel t) := by
  induction fuel with
  | zero => exact fun _ _ start => start
  | succ fuel ih =>
    intro s t start
    unfold run
    cases next : body s with
    | none =>
      rw [ends s t start next]
      exact start
    | some s' =>
      obtain ⟨t',moved,after⟩ := steps s t s' start next
      rw [moved]
      exact ih s' t' after

theorem run_succ (body : σ → Option σ) (fuel : Nat) (s : σ) :
    run body (fuel + 1) s = (body (run body fuel s)).getD (run body fuel s) := by
  induction fuel generalizing s with
  | zero =>
    unfold run
    cases body s <;> simp [run]
  | succ fuel ih =>
    rw [run]
    cases next : body s with
    | none => simp [run,next]
    | some s' => simpa [run,next] using ih s'

theorem run_over (ended : body (run body fuel s) = none) (longer : fuel ≤ more) :
    run body more s = run body fuel s := by
  induction longer with
  | refl => rfl
  | step _ ih => rw [run_succ,ih,ended,Option.getD_none]

theorem run_keeps (keeps : σ → Prop) (round : ∀ s s', keeps s → body s = some s' → keeps s')
    (fuel : Nat) (start : keeps s) :
    keeps (run body fuel s) := by
  induction fuel generalizing s with
  | zero => exact start
  | succ fuel ih =>
    unfold run
    cases next : body s with
    | none => exact start
    | some s' => exact ih (round s s' start next)

end Psat.General.Loop
