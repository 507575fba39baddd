import Mathlib.Order.Basic

namespace Psat.General

-- Partial postconditions of a computation that threads a state and may stop.
def Returns (x : StateT σ Option α) (post : α → Prop) : Prop :=
  ∀ s value s', x.run s = some (value,s') → post value

theorem Returns.pure {post : α → Prop} (holds : post value) : Returns (Pure.pure value : StateT σ Option α) post := by
  intro s answer s' run
  simp only [StateT.run_pure,Option.pure_def,Option.some.injEq,Prod.mk.injEq] at run
  exact run.1 ▸ holds

theorem Returns.bind (first : Returns x mid) (next : ∀ value, mid value → Returns (f value) post) :
    Returns (x >>= f) post := by
  intro s answer s' run
  simp only [StateT.run_bind,Option.bind_eq_bind,Option.bind_eq_some_iff,Prod.exists] at run
  obtain ⟨value,middle,ran,rest⟩ := run
  exact next value (first s value middle ran) middle answer s' rest

theorem Returns.anything (x : StateT σ Option α) : Returns x fun _ => True :=
  fun _ _ _ _ => trivial

theorem Returns.weaken (known : Returns x post)
    (imp : ∀ value, post value → post' value) : Returns x post' :=
  fun s value s' run => imp value (known s value s' run)

theorem Returns.after (x : StateT σ Option α)
    (next : ∀ value, Returns (f value) post) : Returns (x >>= f) post :=
  .bind (.anything x) fun value _ => next value

theorem Returns.foldlM (f : β → α → StateT σ Option β) (inv : List α → β → Prop)
    (step : ∀ done item acc, inv done acc → Returns (f acc item) (inv (done ++ [item])))
    (items : List α) (done : List α) (acc : β) (start : inv done acc) : Returns (items.foldlM f acc)
    (inv (done ++ items)) := by
  induction items generalizing done acc with
  | nil =>
    rw [List.foldlM_nil,List.append_nil]
    exact .pure start
  | cons item items ih =>
    refine .bind (step done item acc start) fun next holds => ?_
    have rest := ih (done ++ [item]) next holds
    rwa [List.append_assoc] at rest

-- A computation whose state only grows; what a value means is said of every later view.
section Foresight
variable {σ τ : Type*} {α β : Type _} [Preorder τ] (shows : σ → τ → Prop)

-- A step that leaves the view alone.
def Still (x : StateT σ Option α) (post : α → Prop) : Prop :=
  ∀ s value s' view, shows s view → x.run s = some (value,s') → shows s' view ∧ post value

def Later (x : StateT σ Option α) (view : τ) (post : τ → α → Prop) : Prop :=
  ∀ s value s', shows s view → x.run s = some (value,s') → ∃ next, shows s' next ∧ view ≤ next ∧
    ∀ last, next ≤ last → post last value

variable {shows}

omit [Preorder τ] in
theorem Still.pure (holds : post value) : Still shows (Pure.pure value : StateT σ Option α) post := by
  intro s answer s' view seen run
  obtain ⟨rfl,rfl⟩ := run
  exact ⟨seen,holds⟩

omit [Preorder τ] in
theorem Still.bind (first : Still shows x mid) (next : ∀ value, mid value → Still shows (f value) post) :
    Still shows (x >>= f) post := by
  intro s answer s' view seen run
  simp only [StateT.run_bind,Option.bind_eq_bind,Option.bind_eq_some_iff,Prod.exists] at run
  obtain ⟨value,middle,ran,rest⟩ := run
  obtain ⟨still,holds⟩ := first s value middle view seen ran
  exact next value holds middle answer s' view still rest

omit [Preorder τ] in
theorem Still.weaken (known : Still shows x post) (imp : ∀ value, post value → post' value) : Still shows x post' := by
  intro s value s' view seen run
  obtain ⟨still,holds⟩ := known s value s' view seen run
  exact ⟨still,imp value holds⟩

theorem Later.pure (holds : ∀ last, view ≤ last → post last value) : Later shows
    (Pure.pure value : StateT σ Option α) view post := by
  intro s answer s' seen run
  obtain ⟨rfl,rfl⟩ := run
  exact ⟨view,seen,le_refl view,holds⟩

theorem Later.bind (first : Later shows x view mid)
    (next : ∀ value middle, view ≤ middle → (∀ last, middle ≤ last → mid last value) →
      Later shows (f value) middle post) :
    Later shows (x >>= f) view post := by
  intro s answer s' seen run
  simp only [StateT.run_bind,Option.bind_eq_bind,Option.bind_eq_some_iff,Prod.exists] at run
  obtain ⟨value,between,ran,rest⟩ := run
  obtain ⟨middle,seenThen,grown,holds⟩ := first s value between seen ran
  obtain ⟨after,seenAfter,grownAfter,holdsAfter⟩ := next value middle grown holds between answer s' seenThen rest
  exact ⟨after,seenAfter,le_trans grown grownAfter,holdsAfter⟩

theorem Later.weaken (known : Later shows x view post)
    (imp : ∀ last value, post last value → post' last value) : Later shows x view post' := by
  intro s value s' seen run
  obtain ⟨next,seenNext,grown,holds⟩ := known s value s' seen run
  exact ⟨next,seenNext,grown,fun last above => imp last value (holds last above)⟩

theorem Still.later (known : ∀ last, view ≤ last → Still shows x (post last)) : Later shows x view post := by
  intro s value s' seen run
  refine ⟨view,(known view (le_refl view) s value s' view seen run).1,le_refl view,fun last above => ?_⟩
  exact (known last above s value s' view seen run).2

theorem Later.foldlM (f : β → α → StateT σ Option β) (inv : List α → τ → β → Prop)
    (step : ∀ done item view acc, (∀ last, view ≤ last → inv done last acc) →
      Later shows (f acc item) view (inv (done ++ [item])))
    (items done : List α) (view : τ) (acc : β) (start : ∀ last, view ≤ last → inv done last acc) :
    Later shows (items.foldlM f acc) view (inv (done ++ items)) := by
  induction items generalizing done acc view with
  | nil =>
    rw [List.foldlM_nil,List.append_nil]
    exact Later.pure start
  | cons item items ih =>
    refine Later.bind (step done item view acc start) fun next middle _ holds => ?_
    have rest := ih (done ++ [item]) middle next holds
    rwa [List.append_assoc] at rest

end Foresight

end Psat.General
