import Psat.Ordering.Frames

namespace Psat.Ordering
open Psat.General List

structure Ready (program : UnitId → CodeUnit) (function : UnitId) (inputs : Inputs) (frame : Frame) (rest : List Frame)
    (trace : List Executed) : Prop where
  right : MachineRight program function inputs ⟨frame :: rest,trace⟩
  keeps : Machine.KeepsParameters program ⟨frame :: rest,trace⟩
  memory : Machine.KeepsMemory program ⟨frame :: rest,trace⟩
  runs : Machine.RunsBodies program ⟨frame :: rest,trace⟩

namespace Ready

section
variable (ready : Ready program function inputs frame rest trace)
include ready

theorem frameRight : FrameRight program function inputs trace frame :=
  ready.right.stack.head

theorem active : Active program function inputs trace frame.active :=
  ready.frameRight.active

theorem free : frame.Free := ready.right.free frame rest rfl

theorem unassigned (there : frame.active.ir program = some ir) :
    ∀ id ∈ (program frame.active.visit.unit).parameters, ir.target ≠ some (.localVar id) :=
  ready.keeps frame rest ir rfl there

end

end Ready

theorem events_right (before : ∀ event ∈ trace, EventRight program inputs event)
    (new : EventRight program inputs event) :
    ∀ other ∈ event :: trace, EventRight program inputs other := by
  intro other listed
  cases listed with
  | head => exact new
  | tail _ old => exact before other old

theorem Ready.move (ready : Ready program function inputs frame rest trace)
    (stack : StackRight program function inputs trace' (frame :: rest)) (new : Active program function inputs trace' a)
    (same : a.visit = frame.active.visit) (events : ∀ event ∈ trace', EventRight program inputs event) :
    MachineRight program function inputs ⟨frame.setActive a :: rest,trace'⟩ := by
  obtain ⟨right,whole,free⟩ := stack.head.setActive ready.free new same
  refine ⟨stack.replace right whole,?_,events⟩
  intro other others stacked
  cases stacked
  exact free

theorem Ready.execute (ready : Ready program function inputs frame rest trace)
    (there : frame.active.ir program = some ir)
    (executes : Executes inputs.sender frame.active.env ir env cell) :
    MachineRight program function inputs ⟨frame.setActive (frame.active.next env) :: rest,
      ⟨frame.active.visit,frame.active.position,ir,cell⟩ :: trace⟩ := by
  have active := ready.active
  obtain ⟨bound,taken,written⟩ :=
    executes.right ((program frame.active.visit.unit).irAt_mem there) active.bound active.taken
    fun id kind known => ready.unassigned there id (active.visited.bound_parameter known)
  refine ready.move (ready.right.stack.later _) ((active.later _).next bound taken ?_) rfl
    (events_right ready.right.trace ⟨there,written⟩)
  intro other there'
  cases there.symm.trans there'
  refine ⟨⟨_,mem_cons_self,rfl,rfl⟩,?_⟩
  intro callee arguments called
  rw [executes.called_none] at called
  cases called

theorem Ready.touch (ready : Ready program function inputs frame rest trace)
    (there : frame.active.ir program = some ir) (touches : ir.TouchesMemory frame.active.env)
    (disturbed : List.Forall₂ (Frame.Disturbed program) (frame :: rest) stack) :
    MachineRight program function inputs ⟨stack,trace⟩ := by
  have byValue := ready.memory frame rest ir rfl there touches
  refine ⟨ready.right.stack.disturbed byValue disturbed,?_,ready.right.trace⟩
  intro other others stacked
  cases stacked
  cases disturbed with
  | cons changed _ =>
    exact (ready.frameRight.disturbed (byValue frame mem_cons_self) changed).2.2 ready.free

theorem call_event {a : Activation} (there : a.ir program = some ir)
    (called : ir.called = some (some callee,arguments)) :
    EventRight program inputs ⟨a.visit,a.position,ir,none⟩ := by
  refine ⟨there,?_⟩
  intro target path plain
  cases ir with
  | internalCall => cases plain
  | libraryCall => cases plain
  | _ => cases called

theorem Ready.call (ready : Ready program function inputs frame rest trace) (there : frame.active.ir program = some ir)
    (called : ir.called = some (some callee,arguments)) (unmodified : (program callee).isModifier = false)
    (enters : Enters inputs.sender frame.active.env (program callee).toCode arguments env) :
    MachineRight program function inputs
      ⟨.plain {visit:=frame.active.visit.callee program frame.active.position callee arguments,env:=env} ::
        frame :: rest,
          ⟨frame.active.visit,frame.active.position,ir,none⟩ :: trace⟩ where
  stack := by
    refine .above ⟨(ready.active.later _).enter there called enters,fun _ => unmodified⟩
      ((waits_free ready.free).mpr ?_)
      (ready.right.stack.later _)
    exact ⟨ir,callee,arguments,there,called,rfl,⟨_,mem_cons_self,rfl,rfl⟩,ready.unassigned there⟩
  free := by
    intro other others stacked
    cases stacked
    trivial
  trace := events_right ready.right.trace (call_event there called)

theorem Ready.modifier (ready : Ready program function inputs (.plain host) rest trace)
    (there : host.ir program = some ir) (called : ir.called = some (some callee,arguments))
    (enters : Enters inputs.sender host.env (program callee).toCode arguments env) :
    MachineRight program function inputs
      ⟨.around {visit:=host.visit.callee program host.position callee arguments,env:=env} host false false :: rest,
        ⟨host.visit,host.position,ir,none⟩ :: trace⟩ where
  stack := by
    refine (ready.right.stack.later _).replace ?_ rfl
    refine ⟨(ready.active.later _).enter there called enters,ready.active.later _,ready.frameRight.2,?_,
      (fun none => nomatch none),(fun none => nomatch none)⟩
    exact ⟨ir,callee,arguments,there,called,rfl,⟨_,mem_cons_self,rfl,rfl⟩,ready.unassigned there⟩
  free := by
    intro other others stacked
    cases stacked
    trivial
  trace := events_right ready.right.trace (call_event there called)

theorem Ready.jump (ready : Ready program function inputs frame rest trace) (done : frame.active.Done program)
    (edge : son ∈ (program frame.active.visit.unit).sonsOf frame.active.node) :
    MachineRight program function inputs ⟨frame.setActive (frame.active.jump son) :: rest,trace⟩ := by
  refine ready.move ready.right.stack ?_ rfl ready.right.trace
  exact {ready.active with here:=ready.active.here.jump done.1 edge}

theorem Ready.placeholder {active host : Activation}
    (ready : Ready program function inputs (.around active host ran false) rest trace)
    (placed : (program active.visit.unit).typeOf active.node = .placeholder)
    (done : active.index = (program active.visit.unit).lengthAt active.node) :
    MachineRight program function inputs ⟨.plain (host.next host.env) :: .around active host ran true :: rest,trace⟩ :=
    by
  obtain ⟨inner,outer,whole,calls,through,_⟩ := ready.frameRight
  have inside : active.node ∈ (program active.visit.unit).placeholders := by
    refine mem_filter.mpr ⟨mem_range.mpr ?_,by simpa using placed⟩
    by_contra outside
    simp [Code.typeOf,getElem?_eq_none (by omega : (program active.visit.unit).nodes.length ≤ active.node)] at placed
  have exit : active.node ∈ (program active.visit.unit).exits := by
    unfold Code.exits
    split
    · rename_i none
      rw [List.isEmpty_iff.mp none] at inside
      cases inside
    · exact inside
  have passed := calls.passed (inner.here.through (Nat.le_of_eq done.symm) exit)
  refine ⟨.above ⟨outer.next outer.bound outer.taken passed,whole⟩ rfl ?_,?_,ready.right.trace⟩
  · exact ready.right.stack.replace ⟨inner,outer,whole,calls,through,fun _ => Nat.le_of_eq done.symm⟩ rfl
  · intro other others stacked
    cases stacked
    trivial

theorem resume_free {next : Frame} (free : next.Free) : next.resume program finished result =
    next.setActive (next.active.next (next.active.env.assign ((next.active.ir program).bind Ir.target) result)) := by
  cases next with
  | plain active => rfl
  | around active host ran holding =>
    cases holding with
    | true => cases free
    | false => rfl

theorem Active.resumed (active : Active program function inputs trace a) (calls : CallsFor program trace a nested)
    (through : RanThrough program trace nested) (result : Nat) :
    Active program function inputs trace (a.next (a.env.assign ((a.ir program).bind Ir.target) result)) := by
  refine active.next (active.bound.assign _ _ ?_) (active.taken.assign _ _) (calls.passed through)
  obtain ⟨ir,_,_,there,_,_,_,unassigned⟩ := calls
  intro id kind known
  rw [there]
  exact unassigned id (active.visited.bound_parameter known)

theorem FrameRight.released {active host finished : Activation}
    (right : FrameRight program function inputs trace (.around active host ran true))
    (same : finished.visit = host.visit)
    (left : Active program function inputs trace finished)
    (through : finished.visit.path ≠ [] → RanThrough program trace finished.visit) :
    FrameRight program function inputs trace
    (.around (active.next active.env) {host with env:=finished.env} true false) := by
  obtain ⟨inner,outer,whole,calls,_,held⟩ := right
  rw [same] at through
  refine ⟨inner.next inner.bound inner.taken ?_,?_,whole,calls,fun _ => through,fun none => nomatch none⟩
  · intro ir there
    have inside := (program active.visit.unit).irAt_lt there
    have done := held rfl
    simp only [Activation.position] at inside
    omega
  · refine {outer with bound:=?_,taken:=?_}
    · have bound := left.bound
      rw [same] at bound
      exact bound
    · have taken := left.taken
      rw [same] at taken
      exact taken

theorem Ready.leave {frame next : Frame} (ready : Ready program function inputs frame (next :: rest) trace)
    (ended : frame.active.AtEnd program) (result : Nat) :
    MachineRight program function inputs ⟨next.resume program frame.whole.env result :: rest,trace⟩ := by
  cases ready.right.stack with
  | above right waits below =>
    have through : frame.whole.visit.path ≠ [] → RanThrough program trace frame.whole.visit := by
      intro called
      refine right.ran_through ended called ?_
      intro active host ran holding same
      exact ready.runs active host ran holding (next :: rest) (by rw [same])
    by_cases free : next.Free
    · rw [resume_free free]
      have calls := (waits_free free).mp waits
      obtain ⟨frameRight,whole,free'⟩ := below.head.setActive free
        (below.head.active.resumed calls (through calls.nonempty) result) rfl
      refine ⟨below.replace frameRight whole,?_,ready.right.trace⟩
      intro other others stacked
      cases stacked
      exact free'
    · cases next with
      | plain active => exact absurd trivial free
      | around active host ran holding =>
        cases holding with
        | false => exact absurd trivial free
        | true =>
          refine ⟨below.replace (below.head.released waits right.whole through) rfl,?_,ready.right.trace⟩
          intro other others stacked
          cases stacked
          trivial

theorem step_right (right : MachineRight program function inputs s) (step : CarefulStep program inputs.sender s t) :
    MachineRight program function inputs t := by
  obtain ⟨step,keeps,memory,runs⟩ := step
  cases step with
  | execute there executes => exact (Ready.mk right keeps memory runs).execute there executes
  | touch there touches disturbed => exact (Ready.mk right keeps memory runs).touch there touches disturbed
  | call there called unmodified enters => exact (Ready.mk right keeps memory runs).call there called unmodified enters
  | modifier there called _ enters => exact (Ready.mk right keeps memory runs).modifier there called enters
  | jump done edge => exact (Ready.mk right keeps memory runs).jump done edge
  | placeholder placed done => exact (Ready.mk right keeps memory runs).placeholder placed done
  | leave ended => exact (Ready.mk right keeps memory runs).leave ended _
  | finish ended =>
    refine ⟨.empty,?_,right.trace⟩
    intro frame rest none
    cases none

theorem start_right (starts : Starts program function inputs s) : MachineRight program function inputs s := by
  obtain ⟨env,rfl,fresh,given⟩ := starts
  refine ⟨.bottom ⟨⟨.entry,entryBindings_bound given,fresh_taken fresh,?_,.entry⟩,fun called => absurd rfl called⟩,
    ?_,?_⟩
  · intro outer here rest _ split
    simp [entryVisit] at split
  · intro frame rest stacked
    cases stacked
    trivial
  · intro event none
    cases none

end Psat.Ordering
