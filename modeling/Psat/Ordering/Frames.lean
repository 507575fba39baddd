import Psat.Ordering.Cells
import Psat.Ordering.Progress

namespace Psat.Ordering

section
variable (program : UnitId → CodeUnit) (function : UnitId) (inputs : Inputs) (trace : List Executed)

structure Active (a : Activation) : Prop where
  visited : Visited program function a.visit
  bound : Bound inputs a.visit.bindings a.env
  taken : Taken inputs (a.visit.scope program) a.env
  above : Traced program function trace a.visit.path
  here : Reached program trace a.visit a.position

-- The activation waits at a call of the visit, which has begun.
def CallsFor (a : Activation) (inner : Visit) : Prop :=
  ∃ ir callee arguments, a.ir program = some ir ∧ ir.called = some (some callee,arguments) ∧
    inner = a.visit.callee program a.position callee arguments ∧ Ran trace a.visit a.position ∧
    ∀ id ∈ (program a.visit.unit).parameters, ir.target ≠ some (.localVar id)

-- Only the entry may be a unit the walk knows nothing else about.
def Whole (a : Activation) : Prop := a.visit.path ≠ [] → (program a.visit.unit).isModifier = false

def FrameRight : Frame → Prop
  | .plain active => Active program function inputs trace active ∧ Whole program active
  | .around active host ran holding =>
    Active program function inputs trace active ∧ Active program function inputs trace host ∧ Whole program host ∧
      CallsFor program trace host active.visit ∧
      (ran = true → host.visit.path ≠ [] → RanThrough program trace host.visit) ∧
      (holding = true → (program active.visit.unit).lengthAt active.node ≤ active.index)

def Waits : Frame → Visit → Prop
  | .around _ host _ true,inner => inner = host.visit
  | frame,inner => CallsFor program trace frame.active inner

inductive StackRight : List Frame → Prop
  | empty : StackRight []
  | bottom {frame : Frame} : FrameRight program function inputs trace frame → StackRight [frame]
  | above {frame next : Frame} {rest : List Frame} : FrameRight program function inputs trace frame →
    Waits program trace next frame.whole.visit → StackRight (next :: rest) → StackRight (frame :: next :: rest)

def Frame.Free : Frame → Prop
  | .around _ _ _ true => False
  | _ => True

-- A traced instruction is the visit's, and wrote the cell the walk resolves.
def EventRight (event : Executed) : Prop :=
  (program event.visit.unit).irAt event.position = some event.ir ∧
      ∀ target path, event.ir.isPlain → event.ir.target = some target →
        (event.visit.scope program).pathOf target = some path →
        ∃ cell, event.cell = some cell ∧ cell.Matches inputs path

end

structure MachineRight (program : UnitId → CodeUnit) (function : UnitId) (inputs : Inputs) (s : Machine) : Prop where
  stack : StackRight program function inputs s.trace s.stack
  free : ∀ frame rest, s.stack = frame :: rest → frame.Free
  trace : ∀ event ∈ s.trace, EventRight program inputs event

theorem Active.later (active : Active program function inputs trace a) (event : Executed) :
    Active program function inputs (event :: trace) a :=
  {active with above:=active.above.later event,here:=active.here.later event}

theorem Active.traced (active : Active program function inputs trace a) : Traced program function trace a.path :=
  active.above.extend active.visited active.here

theorem CallsFor.later (calls : CallsFor program trace a nested) (event : Executed) : CallsFor program
    (event :: trace) a nested := by
  obtain ⟨ir,callee,arguments,there,called,same,ran,kept⟩ := calls
  exact ⟨ir,callee,arguments,there,called,same,ran.later event,kept⟩

theorem FrameRight.later (right : FrameRight program function inputs trace frame) (event : Executed) :
    FrameRight program function inputs (event :: trace) frame := by
  cases frame with
  | plain active => exact ⟨right.1.later event,right.2⟩
  | around active host ran holding =>
    obtain ⟨inner,outer,whole,calls,through,held⟩ := right
    exact ⟨inner.later event,outer.later event,whole,calls.later event,
      fun ran away => (through ran away).later event,held⟩

theorem Waits.later (waits : Waits program trace frame nested) (event : Executed) : Waits program
    (event :: trace) frame nested := by
  unfold Waits at waits ⊢
  split at waits
  · exact waits
  · exact waits.later event

theorem StackRight.later (right : StackRight program function inputs trace stack) (event : Executed) :
    StackRight program function inputs (event :: trace) stack := by
  induction right with
  | empty => exact .empty
  | bottom frame => exact .bottom (frame.later event)
  | above frame waits _ ih => exact .above (frame.later event) (waits.later event) ih

section
variable (right : StackRight program function inputs trace (frame :: rest))
include right

theorem StackRight.head :
    FrameRight program function inputs trace frame := by
  cases right with
  | bottom frame => exact frame
  | above frame _ _ => exact frame

theorem StackRight.replace
    (new : FrameRight program function inputs trace other) (same : other.whole.visit = frame.whole.visit) :
    StackRight program function inputs trace (other :: rest) := by
  cases right with
  | bottom => exact .bottom new
  | above _ waits deeper => exact .above new (by rw [same]; exact waits) deeper

end

section
variable (right : FrameRight program function inputs trace frame)
include right

theorem FrameRight.active : Active program function inputs trace frame.active := by
  cases frame with
  | plain active => exact right.1
  | around active host ran holding => exact right.1

theorem FrameRight.setActive (free : frame.Free)
    (new : Active program function inputs trace a) (same : a.visit = frame.active.visit) :
    FrameRight program function inputs trace (frame.setActive a) ∧ (frame.setActive a).whole.visit = frame.whole.visit ∧
      (frame.setActive a).Free := by
  cases frame with
  | plain active =>
    refine ⟨⟨new,?_⟩,same,trivial⟩
    unfold Whole
    rw [same]
    exact right.2
  | around active host ran holding =>
    obtain ⟨inner,outer,whole,calls,through,held⟩ := right
    cases holding with
    | true => cases free
    | false => exact ⟨⟨new,outer,whole,by rw [same]; exact calls,through,fun none => nomatch none⟩,rfl,trivial⟩

theorem FrameRight.whole : Active program function inputs trace frame.whole := by
  cases frame with
  | plain active => exact right.1
  | around active host ran holding => exact right.2.1

end

theorem waits_free (free : frame.Free) : Waits program trace frame nested ↔
    CallsFor program trace frame.active nested := by
  cases frame with
  | plain active => exact Iff.rfl
  | around active host ran holding =>
    cases holding with
    | true => cases free
    | false => exact Iff.rfl

theorem Active.enter (active : Active program function inputs trace a) (there : a.ir program = some ir)
    (called : ir.called = some (some callee,arguments))
    (enters : Enters inputs.sender a.env (program callee).toCode arguments env) :
    Active program function inputs trace {visit:=a.visit.callee program a.position callee arguments,env:=env} where
  visited := active.visited.call there called
  bound := calleeBindings_bound active.bound enters
  taken := fresh_taken enters.2
  above := active.traced
  here := .entry

theorem Active.next (active : Active program function inputs trace a) (bound : Bound inputs a.visit.bindings env)
    (taken : Taken inputs (a.visit.scope program) env)
    (passed : ∀ ir, a.ir program = some ir → Ran trace a.visit a.position ∧
      ∀ callee arguments, ir.called = some (some callee,arguments) →
        RanThrough program trace (a.visit.callee program a.position callee arguments)) :
    Active program function inputs trace (a.next env) where
  visited := active.visited
  bound := bound
  taken := taken
  above := active.above
  here := active.here.next passed

theorem CallsFor.passed (calls : CallsFor program trace a nested) (through : RanThrough program trace nested) :
    ∀ ir, a.ir program = some ir → Ran trace a.visit a.position ∧ ∀ callee arguments, ir.called = some
    (some callee,arguments) →
      RanThrough program trace (a.visit.callee program a.position callee arguments) := by
  obtain ⟨ir,callee,arguments,there,called,same,ran,_⟩ := calls
  intro other there'
  cases there.symm.trans there'
  refine ⟨ran,?_⟩
  intro callee' arguments' called'
  cases called.symm.trans called'
  rw [← same]
  exact through

theorem CallsFor.nonempty (calls : CallsFor program trace a nested) : nested.path ≠ [] := by
  obtain ⟨_,_,_,_,_,same,_⟩ := calls
  rw [same]
  simp [Visit.callee]

theorem Executes.called_none (executes : Executes sender env ir env' cell) : ir.called = none := by
  cases executes with
  | index => rfl
  | member => rfl
  | write plain =>
    cases ir with
    | internalCall => cases plain
    | libraryCall => cases plain
    | _ => rfl
  | skip plain =>
    cases ir with
    | internalCall => cases plain
    | libraryCall => cases plain
    | _ => rfl

theorem Active.disturbed (active : Active program function inputs trace a) (byValue : a.ByValue program)
    (disturbed : a.Disturbed program b) : Active program function inputs trace b := by
  obtain ⟨env,rfl,references,kept⟩ := disturbed
  refine {active with bound:=?_,taken:=?_}
  · intro id kind known
    rw [kept id (byValue id (active.visited.bound_parameter known))]
    exact active.bound id kind known
  · intro id referent fuel path points
    rw [references] at points
    exact active.taken id referent fuel path points

theorem Waits.disturbed (waits : Waits program trace frame nested) (disturbed : frame.Disturbed program other) :
    Waits program trace other nested := by
  cases disturbed with
  | plain changed =>
    obtain ⟨env,rfl,_⟩ := changed
    exact waits
  | @around _ _ _ _ _ holding changed changed' =>
    obtain ⟨env,rfl,_⟩ := changed
    obtain ⟨env',rfl,_⟩ := changed'
    cases holding <;> exact waits

theorem FrameRight.disturbed (right : FrameRight program function inputs trace frame)
    (byValue : frame.active.ByValue program ∧ frame.whole.ByValue program)
    (disturbed : frame.Disturbed program other) :
    FrameRight program function inputs trace other ∧ other.whole.visit = frame.whole.visit ∧
      (frame.Free → other.Free) := by
  cases disturbed with
  | plain changed =>
    have active := right.1.disturbed byValue.1 changed
    obtain ⟨env,rfl,_⟩ := changed
    exact ⟨⟨active,right.2⟩,rfl,id⟩
  | @around _ _ _ _ _ holding changed changed' =>
    obtain ⟨inner,outer,whole,calls,through,held⟩ := right
    have active := inner.disturbed byValue.1 changed
    have host := outer.disturbed byValue.2 changed'
    obtain ⟨env,rfl,_⟩ := changed
    obtain ⟨env',rfl,_⟩ := changed'
    refine ⟨⟨active,host,whole,calls,through,held⟩,rfl,?_⟩
    cases holding <;> exact id

theorem StackRight.disturbed (right : StackRight program function inputs trace stack)
    (byValue : ∀ frame ∈ stack, frame.active.ByValue program ∧ frame.whole.ByValue program)
    (disturbed : List.Forall₂ (Frame.Disturbed program) stack stack') :
    StackRight program function inputs trace stack' := by
  induction right generalizing stack' with
  | empty =>
    cases disturbed
    exact .empty
  | bottom frame =>
    cases disturbed with
    | cons changed none =>
      cases none
      exact .bottom (frame.disturbed (byValue _ List.mem_cons_self) changed).1
  | above frame waits _ ih =>
    cases disturbed with
    | cons changed rest =>
      obtain ⟨right,whole,_⟩ := frame.disturbed (byValue _ List.mem_cons_self) changed
      have below := ih (List.forall_mem_cons.mp byValue).2 rest
      cases rest with
      | cons next rest => exact .above right (by rw [whole]; exact waits.disturbed next) below

theorem FrameRight.ran_through (right : FrameRight program function inputs trace frame)
    (ended : frame.active.AtEnd program) (called : frame.whole.visit.path ≠ [])
    (runs : ∀ active host ran holding, frame = .around active host ran holding → active.AtEnd program →
      host.visit.path ≠ [] → ran = true) : RanThrough program trace frame.whole.visit := by
  cases frame with
  | plain active =>
    refine right.1.here.through ended.1.1 ?_
    have none : (program active.visit.unit).placeholders = [] := by
      refine List.filter_eq_nil_iff.mpr ?_
      intro n _
      simpa using (program active.visit.unit).placeholder_modifier (right.2 called) n
    rw [Code.exits,none]
    exact ended.2
  | around active host ran holding => exact right.2.2.2.2.1 (runs active host ran holding rfl ended called) called

end Psat.Ordering
