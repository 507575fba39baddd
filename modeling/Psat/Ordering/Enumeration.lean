import Psat.Ordering.Walk

namespace Psat.Ordering
open Psat.General List

-- A later state of the walk keeps what an earlier one has found.
structure WalkState.Within (s t : WalkState) : Prop where
  calls : s.calls ⊆ t.calls
  incomplete : s.incomplete = true → t.incomplete = true

namespace WalkState.Within

theorem refl (s : WalkState) : s.Within s := ⟨List.Subset.refl _,id⟩

theorem trans {s t u : WalkState} (first : s.Within t) (second : t.Within u) : s.Within u :=
  ⟨List.Subset.trans first.calls second.calls,fun known => second.incomplete (first.incomplete known)⟩

theorem foldl {f : WalkState → α → WalkState} (step : ∀ (s : WalkState) a, s.Within (f s a)) :
    ∀ (l : List α) (s : WalkState), s.Within (l.foldl f s) := by
  intro l
  induction l with
  | nil => exact refl
  | cons a l ih => exact fun s => (step s a).trans (ih (f s a))

theorem foldl_at {f : WalkState → α → WalkState} (step : ∀ (s : WalkState) a, s.Within (f s a)) :
    ∀ {l : List α} (s : WalkState), a ∈ l → ∃ before, (f before a).Within (l.foldl f s) := by
  intro l
  induction l with
  | nil => exact fun _ none => nomatch none
  | cons b l ih =>
    intro s member
    cases member with
    | head => exact ⟨s,foldl step l _⟩
    | tail _ member => exact ih (f s b) member

end WalkState.Within

theorem noteCall_within (visit : Visit) (position : Position) (ir : Ir) (s : WalkState) :
    s.Within (noteCall visit position ir s) := by
  unfold noteCall
  split
  · exact ⟨subset_append_left _ _,id⟩
  · exact .refl s

theorem noteDynamic_within (ir : Ir) (s : WalkState) : s.Within (noteDynamic ir s) := by
  unfold noteDynamic
  split
  · exact ⟨List.Subset.refl _,fun _ => rfl⟩
  · exact .refl s

theorem noteWrite_within (visit : Visit) (position : Position) (ir : Ir) (s : WalkState) :
    s.Within (noteWrite program base steps visit position ir s) := by
  unfold noteWrite
  split
  · exact .refl s
  · dsimp only
    split <;> exact ⟨List.Subset.refl _,id⟩

theorem incomplete_within (s : WalkState) : s.Within {s with incomplete:=true} := ⟨List.Subset.refl _,fun _ => rfl⟩

theorem noteCallee_within
    (deeper : ∀ walk ∈ descend, ∀ visit (s : WalkState), s.Within (walk visit s)) (visit : Visit)
    (position : Position) (ir : Ir)
    (s : WalkState) : s.Within (noteCallee program descend visit position ir s) := by
  unfold noteCallee
  split
  · exact .refl s
  · exact incomplete_within s
  · split
    · exact incomplete_within s
    · split
      · exact incomplete_within s
      · split
        · exact incomplete_within s
        · rename_i walk
          split
          · exact incomplete_within s
          · have paid : s.Within {s with budget:=s.budget - 1} := ⟨List.Subset.refl _,id⟩
            exact paid.trans (deeper walk rfl _ _)

theorem walkIr_within
    (deeper : ∀ walk ∈ descend, ∀ visit (s : WalkState), s.Within (walk visit s)) (visit : Visit)
    (s : WalkState) (found : Position × Ir) :
    s.Within (walkIr program base steps descend visit s found) :=
  (((noteCall_within visit found.1 found.2 s).trans (noteDynamic_within found.2 _)).trans
      (noteWrite_within visit found.1 found.2 _)).trans (noteCallee_within deeper visit found.1 found.2 _)

-- The walks one level deeper, as `walkIr` is given them.
def descents (program : UnitId → CodeUnit) (base : String) (steps : List PathStep) :
    Nat → Option (Visit → WalkState → WalkState)
  | 0 => none
  | depth + 1 => some (walk program base steps depth)

theorem walk_eq : walk program base steps depth visit s =
    (program visit.unit).positions.foldl (walkIr program base steps (descents program base steps depth) visit) s := by
  cases depth <;> rfl

theorem walk_within : ∀ depth visit (s : WalkState), s.Within (walk program base steps depth visit s)
  | 0,visit,s => by
    rw [walk_eq]
    refine .foldl (walkIr_within ?_ visit) _ s
    intro walk given
    cases given
  | depth + 1,visit,s => by
    rw [walk_eq]
    refine .foldl (walkIr_within ?_ visit) _ s
    intro walk given
    cases given
    exact walk_within depth

theorem descents_within (program : UnitId → CodeUnit) (base : String) (steps : List PathStep) (depth : Nat) :
    ∀ walk ∈ descents program base steps depth, ∀ visit (s : WalkState), s.Within (walk visit s) := by
  intro walk given
  cases depth with
  | zero => cases given
  | succ depth =>
    cases given
    exact walk_within depth

-- The walk of this visit is part of a finished walk.
def Walked (program : UnitId → CodeUnit) (base : String) (steps : List PathStep) (final : WalkState) (visit : Visit) :
    Prop :=
  ∃ depth s, (walk program base steps depth visit s).Within final

section
variable (walked : Walked program base steps final visit)
include walked

section
variable (there : (program visit.unit).irAt position = some ir)
include there

theorem Walked.at_ir :
    ∃ depth s, (walkIr program base steps (descents program base steps depth) visit s (position,ir)).Within final := by
  obtain ⟨depth,s,inside⟩ := walked
  have member := ((program visit.unit).mem_positions).mpr there
  obtain ⟨before,kept⟩ := WalkState.Within.foldl_at
    (walkIr_within (descents_within program base steps depth) visit) s member
  rw [← walk_eq] at kept
  exact ⟨depth,before,kept.trans inside⟩

theorem Walked.external_listed
    (external : isExternalCallIr ir) :
    ∃ site ∈ final.calls, site.path = visit.path ++ [position] := by
  obtain ⟨depth,s,inside⟩ := walked.at_ir there
  have noted : (noteCall visit position ir s).Within final :=
    (((noteDynamic_within ir _).trans (noteWrite_within visit position ir _)).trans
        (noteCallee_within (descents_within program base steps depth) visit position ir _)).trans inside
  refine ⟨{path:=visit.path ++ [position],units:=visit.units},noted.calls ?_,rfl⟩
  simp [noteCall,external]

theorem Walked.callee_walked (closed : final.incomplete = false)
    (called : ir.called = some (some callee,arguments)) :
    Walked program base steps final (visit.callee program position callee arguments) := by
  obtain ⟨depth,s,inside⟩ := walked.at_ir there
  have cut : ∀ t : WalkState, ¬WalkState.Within {t with incomplete:=true} final := by
    intro t within
    have left := within.incomplete rfl
    rw [closed] at left
    cases left
  simp only [walkIr,noteCallee,called] at inside
  split at inside
  · exact absurd inside (cut _)
  · split at inside
    · exact absurd inside (cut _)
    · cases depth with
      | zero => exact absurd inside (cut _)
      | succ depth =>
        simp only [descents] at inside
        split at inside
        · exact absurd inside (cut _)
        · exact ⟨depth,_,inside⟩

end

end

-- The visits that calls lead to from the entry.
inductive Visited (program : UnitId → CodeUnit) (function : UnitId) : Visit → Prop
  | entry : Visited program function (entryVisit program function)
  | call {visit : Visit} {position : Position} {ir : Ir} {callee : UnitId} {arguments : List Value} :
    Visited program function visit → (program visit.unit).irAt position = some ir →
    ir.called = some (some callee,arguments) → Visited program function (visit.callee program position callee arguments)

theorem Visited.unique (first : Visited program function visit) :
    ∀ {other : Visit}, Visited program function other → visit.path = other.path → visit = other := by
  induction first with
  | entry =>
    intro other second same
    cases second with
    | entry => rfl
    | call => simp [entryVisit,Visit.callee] at same
  | call first there called ih =>
    intro other second same
    cases second with
    | entry => simp [entryVisit,Visit.callee] at same
    | call second there' called' =>
      obtain ⟨path,position⟩ := append_inj' same rfl
      cases position
      cases ih second path
      rw [there] at there'
      cases there'
      rw [called] at called'
      cases called'
      rfl

theorem Visited.walked (closed : (enumeration program function base steps).incomplete = false)
    (visited : Visited program function visit) : Walked program base steps
    (enumeration program function base steps) visit := by
  induction visited with
  | entry => exact ⟨6,_,.refl _⟩
  | call _ there called ih => exact ih.callee_walked there closed called

-- A site that a visit's own instruction gives.
structure ClearsAt (program : UnitId → CodeUnit) (base : String) (steps : List PathStep) (visit : Visit)
    (position : Position)
    (ir : Ir) (shape : ClearingShape) (site : Site) : Prop where
  there : (program visit.unit).irAt position = some ir
  shaped : (visit.scope program).clearingShape ir position base steps = some shape
  path : site.path = visit.path ++ [position]
  units : site.units = visit.units
  near : visit.path.length ≤ 1

def Clears (program : UnitId → CodeUnit) (base : String) (steps : List PathStep) (function : UnitId) (site : Site) :
    Prop :=
  ∃ visit position ir shape, Visited program function visit ∧ ClearsAt program base steps visit position ir shape site

def AllClear (program : UnitId → CodeUnit) (base : String) (steps : List PathStep) (function : UnitId) (s : WalkState) :
    Prop :=
  ∀ site ∈ s.writes, Clears program base steps function site

theorem noteWrite_clears (visited : Visited program function visit)
    (there : (program visit.unit).irAt position = some ir)
    (found : AllClear program base steps function s) :
    AllClear program base steps function (noteWrite program base steps visit position ir s) := by
  intro site listed
  unfold noteWrite at listed
  split at listed
  · exact found site listed
  · rename_i shape shaped
    dsimp only at listed
    split at listed
    · rename_i near
      cases mem_append.mp listed with
      | inl old => exact found site old
      | inr new =>
        cases mem_singleton.mp new
        rw [length_append,length_singleton] at near
        exact ⟨visit,position,ir,shape,visited,there,shaped,rfl,rfl,by omega⟩
    · exact found site listed

section
variable {descend : Option (Visit → WalkState → WalkState)}
    (deeper : ∀ walk ∈ descend, ∀ visit s, Visited program function visit → AllClear program base steps function s →
    AllClear program base steps function (walk visit s)) (visited : Visited program function visit)
    (found : AllClear program base steps function s)
include deeper visited found

theorem noteCallee_clears (there : (program visit.unit).irAt position = some ir) :
    AllClear program base steps function (noteCallee program descend visit position ir s) := by
  unfold noteCallee
  split
  · exact found
  · exact found
  · rename_i callee arguments called
    split
    · exact found
    · split
      · exact found
      · split
        · exact found
        · rename_i walk
          split
          · exact found
          · exact deeper walk rfl _ _ (visited.call there called) found

theorem walkIr_clears (there : (program visit.unit).irAt position = some ir) :
    AllClear program base steps function (walkIr program base steps descend visit s (position,ir)) := by
  refine noteCallee_clears deeper visited (noteWrite_clears visited there ?_) there
  have dynamic : (noteDynamic ir (noteCall visit position ir s)).writes = s.writes := by
    unfold noteDynamic noteCall
    split <;> split <;> rfl
  unfold AllClear
  rw [dynamic]
  exact found

theorem visit_clears : AllClear program base steps function
    ((program visit.unit).positions.foldl (walkIr program base steps descend visit) s) := by
  refine List.foldlRecOn (motive:=AllClear program base steps function) _ _ found ?_
  intro s found entry listed
  exact walkIr_clears deeper visited found (((program visit.unit).mem_positions).mp listed)

end

theorem walk_clears (depth : Nat) : ∀ visit s, Visited program function visit → AllClear program base steps function s →
    AllClear program base steps function (walk program base steps depth visit s) := by
  induction depth with
  | zero =>
    exact fun visit s visited found => visit_clears (fun walk none => by cases none) visited found
  | succ depth ih =>
    intro visit s visited found
    refine visit_clears (fun walk given => ?_) visited found
    cases given
    exact ih

theorem enumeration_clears : AllClear program base steps function (enumeration program function base steps) :=
  walk_clears 6 _ {} .entry fun _ none => nomatch none

theorem Visited.near (visited : Visited program function visit) (near : visit.path.length ≤ 1) :
    visit = entryVisit program function ∨ ∃ position ir callee arguments,
      (program function).irAt position = some ir ∧ ir.called = some (some callee,arguments) ∧
        visit = (entryVisit program function).callee program position callee arguments := by
  cases visited with
  | entry => exact .inl rfl
  | call outer there called =>
    rename_i outerVisit position ir callee arguments
    have bottom : outerVisit.path = (entryVisit program function).path := by
      simp only [Visit.callee,length_append,length_singleton] at near
      exact length_eq_zero_iff.mp (by omega)
    cases outer.unique .entry bottom
    exact .inr ⟨position,ir,callee,arguments,there,called,rfl⟩

theorem precedes_parts (before : precedes program write call = .ok inLoop) :
    ∃ w unit nested c rest, (write.path.zip write.units).drop (sharedLength write.path call.path) = (w,unit) :: nested ∧
      call.path.drop (sharedLength write.path call.path) = c :: rest ∧
      ¬(sharedLength write.path call.path = 0 ∧ 1 < write.path.length ∧ 1 < call.path.length) ∧
      ordered (program unit).toCode w c = true ∧ nestedRuns program nested = .ok () ∧
      (program unit).loopContext w.1 = (program unit).loopContext c.1 ∧
      inLoop = !((program unit).loopContext w.1).isEmpty := by
  revert before
  fun_cases precedes program write call with
  | case4 _ w unit nested c rest called parted siblings looped placed =>
    intro before
    cases runs : nestedRuns program nested with
    | error reason =>
      rw [runs] at before
      cases before
    | ok done =>
      rw [runs] at before
      cases before
      exact ⟨w,unit,nested,c,rest,parted,called,siblings,by simpa using placed,runs,not_not.mp looped,rfl⟩
  | _ => rintro ⟨⟩

theorem nestedRuns_head (runs : nestedRuns program ((position,unit) :: deeper) = .ok ()) :
    (program unit).dominatesAllExits position.1 = true := by
  unfold nestedRuns at runs
  split at runs
  · cases runs
  · rename_i exits
    simpa using exits

theorem precedes_entry (path : write.path = [w]) (units : write.units = [function])
    (before : precedes program write call = .ok inLoop) :
    ∃ c rest, call.path = c :: rest ∧ ordered (program function).toCode w c = true := by
  obtain ⟨w',unit,nested,c,rest,parted,called,_,placed,_,_⟩ := precedes_parts before
  rw [path,units] at parted
  rw [path] at called
  cases shared : sharedLength [w] call.path with
  | zero =>
    rw [shared] at parted called
    cases parted
    exact ⟨c,rest,called,placed⟩
  | succ n =>
    rw [shared] at parted
    simp at parted

theorem precedes_callee (path : write.path = [q,w]) (units : write.units = [function,callee])
    (before : precedes program write call = .ok inLoop) :
    (∃ c, call.path = [c] ∧ ordered (program function).toCode q c = true ∧
      (program callee).dominatesAllExits w.1 = true) ∨
        ∃ c rest, call.path = q :: c :: rest ∧ ordered (program callee).toCode w c = true := by
  obtain ⟨w',unit,nested,c,rest,parted,called,siblings,placed,runs,_⟩ := precedes_parts before
  rw [path,units] at parted
  rw [path] at called siblings
  cases callPath : call.path with
  | nil => simp [callPath] at called
  | cons first others =>
    rw [callPath] at parted called siblings
    by_cases same : q = first
    · subst same
      refine .inr ?_
      rw [sharedLength,if_pos rfl,drop_succ_cons] at called
      rw [sharedLength,if_pos rfl] at parted
      cases deeper : sharedLength [w] others with
      | zero =>
        rw [deeper] at parted called
        cases parted
        exact ⟨c,rest,by rw [drop_zero] at called; rw [called],placed⟩
      | succ n =>
        rw [deeper] at parted
        simp at parted
    · refine .inl ?_
      rw [sharedLength,if_neg same] at parted called siblings
      cases parted
      cases called
      refine ⟨c,?_,placed,nestedRuns_head runs⟩
      cases rest with
      | nil => rfl
      | cons second more => exact absurd ⟨rfl,by simp,by simp⟩ siblings

theorem precedesAll_each (before : precedesAll program write calls = .ok disclosed) :
    ∀ call ∈ calls, ∃ inLoop, precedes program write call = .ok inLoop ∧ (disclosed = false → inLoop = false) := by
  induction calls generalizing disclosed with
  | nil => exact fun _ none => nomatch none
  | cons first calls ih =>
    unfold precedesAll at before
    cases here : precedes program write first with
    | error reason => simp [here] at before
    | ok inLoop =>
      cases rest : precedesAll program write calls with
      | error reason =>
        simp only [here,rest] at before
        cases before
      | ok later =>
        simp only [here,rest] at before
        cases before
        intro call member
        cases member with
        | head => exact ⟨inLoop,here,fun none => (Bool.or_eq_false_iff.mp none).1⟩
        | tail _ member =>
          obtain ⟨other,found,within⟩ := ih rest call member
          exact ⟨other,found,fun none => within (Bool.or_eq_false_iff.mp none).2⟩

theorem firstProof_write (proven : firstProof program base calls writes reasons = .proven record shape cross) :
    ∃ write ∈ writes, ∀ call ∈ calls, ∃ inLoop, precedes program write call = .ok inLoop ∧
    (cross = false → inLoop = false) := by
  induction writes generalizing reasons with
  | nil => simp [firstProof] at proven
  | cons write writes ih =>
    unfold firstProof at proven
    cases here : precedesAll program write calls with
    | ok disclosed =>
      simp only [here] at proven
      cases proven
      exact ⟨write,mem_cons_self,precedesAll_each here⟩
    | error reason =>
      simp only [here] at proven
      obtain ⟨other,member,each⟩ := ih proven
      exact ⟨other,mem_cons_of_mem _ member,each⟩

theorem proven_write (proven : proveRecordOrdering program function record assembly = .proven name shape cross) :
    ∃ steps, recordSteps record = some steps ∧ (enumeration program function record.baseCanonical steps).incomplete =
    false ∧
      ∃ write ∈ (enumeration program function record.baseCanonical steps).writes,
        ∀ call ∈ (enumeration program function record.baseCanonical steps).calls,
          ∃ inLoop, precedes program write call = .ok inLoop ∧ (cross = false → inLoop = false) := by
  revert proven
  fun_cases proveRecordOrdering program function record assembly with
  | case6 _ _ steps resolved _ closed =>
    exact fun proven => ⟨steps,resolved,by simpa using closed,firstProof_write proven⟩
  | _ => rintro ⟨⟩

end Psat.Ordering
