namespace Psat.General

theorem ok_bind {f : α → Except ε β} :
    (x >>= f) = .ok value ↔ ∃ middle, x = .ok middle ∧ f middle = .ok value := by
  cases x with
  | error failure => simp [bind,Except.bind]
  | ok middle => simp [bind,Except.bind]

theorem ok_map {x : Except ε α} : x.map f = .ok value ↔ ∃ inner, x = .ok inner ∧ f inner = value := by
  cases x with
  | error failure => simp [Except.map]
  | ok inner => simp [Except.map]

-- What a sequence of fallible readers gathers, unless one of them fails.
def gather (read : α → Except ε (List β)) : List α → Except ε (List β)
  | [] => .ok []
  | item :: rest => do
    let first ← read item
    let later ← gather read rest
    return first ++ later

theorem foldlM_append_ok {step : σ → α → Except ε σ} {first second : List α}
    (before : first.foldlM step start = .ok middle)
    (after : second.foldlM step middle = .ok final) : (first ++ second).foldlM step start = .ok final := by
  rw [List.foldlM_append,before]
  exact after

theorem foldlM_gather (read : α → Except ε (List β)) (apply : σ → List β → σ) (step : σ → α → Except ε σ)
    (reads : ∀ state item, step state item = do return apply state (← read item))
    (none : ∀ state, apply state [] = state)
    (more : ∀ state first later, apply state (first ++ later) = apply (apply state first) later)
    (items : List α) (state : σ) : items.foldlM step state = (gather read items).map (apply state) := by
  induction items generalizing state with
  | nil => simp [gather,none,Except.map,pure,Except.pure]
  | cons item rest ih =>
    rw [List.foldlM_cons,reads,gather]
    cases read item with
    | error failure => rfl
    | ok found =>
      have later : rest.foldlM step (apply state found) = (gather read rest).map (apply (apply state found)) := ih _
      simp only [bind,Except.bind,pure,Except.pure] at later ⊢
      rw [later]
      cases gather read rest with
      | error failure => rfl
      | ok found' => simp [Except.map,more]

theorem gather_each {read : α → Except ε (List β)} (read_ : gather read items = .ok all) (member : item ∈ items) :
    ∃ found, read item = .ok found ∧ found ⊆ all := by
  induction items generalizing all with
  | nil => cases member
  | cons first rest ih =>
    obtain ⟨found,here,later⟩ := ok_bind.mp read_
    obtain ⟨others,there,joined⟩ := ok_bind.mp later
    cases joined
    rcases List.mem_cons.mp member with same | member
    · subst same
      exact ⟨found,here,List.subset_append_left _ _⟩
    · obtain ⟨mine,reads,inside⟩ := ih there member
      exact ⟨mine,reads,List.subset_append_of_subset_right _ inside⟩

end Psat.General
