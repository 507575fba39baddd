import Psat.Ordering.Sound

namespace Psat.Ordering
open List PathStep

def CellStep.isMember : CellStep → Bool
  | .key _ => false
  | .member _ => true

-- An indeterminate key names no cell; a record's steps have none.
def PathStep.cellStep (inputs : Inputs) : PathStep → CellStep
  | .index (.param place) => .key (inputs.calldata place)
  | .index .msgSender => .key inputs.sender
  | .index .indeterminate => .key 0
  | .member name => .member name

-- The record's cell, its keys as they came with the call.
def recordCell (inputs : Inputs) (base : String) (steps : List PathStep) : Cell :=
  ⟨base,steps.map (cellStep inputs)⟩

def elementOf (steps : List CellStep) : List CellStep := (steps.reverse.dropWhile CellStep.isMember).reverse

-- The written cell is the record's, contains it, or is a flag of its element.
def ClearingShape.Clears (shape : ClearingShape) (written record : Cell) : Prop :=
  written.base = record.base ∧
    match shape with
    | .delete => written.steps <+: record.steps
    | .flagFlip => ∃ name, written.steps = elementOf record.steps ++ [.member name]
    | _ => written.steps = record.steps

-- A clearing instruction has written to the record's cell.
def Machine.Cleared (program : UnitId → CodeUnit) (inputs : Inputs) (base : String) (steps : List PathStep)
    (s : Machine) : Prop :=
  ∃ event ∈ s.trace, ∃ shape cell, event.cell = some cell ∧
    (event.visit.scope program).clearingShape event.ir event.position base steps = some shape ∧
    shape.Clears cell (recordCell inputs base steps)

def Determinate (steps : List PathStep) : Prop := ∀ step ∈ steps, step ≠ .index .indeterminate

theorem recordKeys_determinate (resolved : recordKeys kinds indexes = some ids) : Determinate ids := by
  fun_induction recordKeys kinds indexes generalizing ids with
  | case1 =>
    cases resolved
    exact fun _ none => nomatch none
  | case2 kinds index indexes ih =>
    obtain ⟨rest,found,rfl⟩ := Option.map_eq_some_iff.mp resolved
    intro step member
    cases member with
    | head => exact nofun
    | tail _ member => exact ih found step member
  | case3 kinds index indexes ih =>
    obtain ⟨rest,found,rfl⟩ := Option.map_eq_some_iff.mp resolved
    intro step member
    cases member with
    | head => exact nofun
    | tail _ member => exact ih found step member
  | case4 => cases resolved

theorem recordSteps_determinate (resolved : recordSteps record = some steps) : Determinate steps := by
  unfold recordSteps at resolved
  split at resolved
  · obtain ⟨keys,found,rfl⟩ := Option.map_eq_some_iff.mp resolved
    intro step member
    cases mem_append.mp member with
    | inl key => exact recordKeys_determinate found step key
    | inr named =>
      obtain ⟨name,_,rfl⟩ := mem_map.mp named
      exact nofun
  · cases resolved

section
variable {inputs : Inputs}

theorem StepMatches.cellStep_eq (found : StepMatches inputs step cell) (known : step ≠ .index .indeterminate) :
    cell = step.cellStep inputs := by
  cases found with
  | @key kind value is =>
    cases kind with
    | indeterminate => exact absurd rfl known
    | _ => exact congrArg CellStep.key is
  | member => rfl

theorem steps_eq (found : List.Forall₂ (StepMatches inputs) path cells)
    (known : Determinate path) : cells = path.map (cellStep inputs) := by
  induction found with
  | nil => rfl
  | cons step _ ih =>
    rw [map_cons,← step.cellStep_eq (known _ mem_cons_self),
      ← ih (forall_mem_cons.mp known).2]

theorem elementOf_map : elementOf (steps.map (cellStep inputs)) = (elementSteps steps).map (cellStep inputs) := by
  have same : CellStep.isMember ∘ cellStep inputs = isMember := by
    funext step
    cases step with
    | index key => cases key <;> rfl
    | member name => rfl
  rw [elementOf,elementSteps,← map_reverse,dropWhile_map,same,map_reverse]

theorem elementSteps_subset (steps : List PathStep) : elementSteps steps ⊆ steps := by
  intro step member
  have kept := mem_reverse.mp member
  exact mem_reverse.mp ((dropWhile_suffix _).subset kept)

theorem ClearingShape.Covers.clears {shape : ClearingShape} (covers : shape.Covers written steps)
    (known : Determinate steps)
    (found : cell.Matches inputs (base,written)) : shape.Clears cell (recordCell inputs base steps) := by
  refine ⟨found.1,?_⟩
  cases shape with
  | delete =>
    have cells := steps_eq found.2 fun step member => known step (List.IsPrefix.subset covers member)
    rw [cells]
    exact List.IsPrefix.map _ covers
  | flagFlip =>
    obtain ⟨name,rfl⟩ := covers
    have cells := steps_eq found.2 (by
      intro step member
      cases mem_append.mp member with
      | inl element => exact known step (elementSteps_subset steps element)
      | inr last =>
        cases mem_singleton.mp last
        exact nofun)
    exact ⟨name,by rw [cells,map_append,← elementOf_map]; rfl⟩
  | _ =>
    cases covers
    exact steps_eq found.2 known

end

section
variable {program : UnitId → CodeUnit} {function : UnitId} {inputs : Inputs}

theorem Active.ran_before (active : Active program function inputs trace a) (path : site.path = a.path)
    (before : precedes program write site = .ok inLoop) (visited : Visited program function visit)
    (clears : ClearsAt program base steps visit position ir shape write) : Ran trace visit position := by
  cases visited.near clears.near with
  | inl entry =>
    subst entry
    obtain ⟨c,rest,called,placed⟩ := precedes_entry clears.path clears.units before
    have reached := active.traced _ c rest visited (path.symm.trans called)
    exact (reached position ir clears.there (ordered_before placed)).1
  | inr below =>
    obtain ⟨q,caller,callee,arguments,there,called,same⟩ := below
    subst same
    cases precedes_callee clears.path clears.units before with
    | inl outside =>
      obtain ⟨c,only,placed,exits⟩ := outside
      have reached := active.traced _ c [] .entry (path.symm.trans only)
      exact (reached q caller there (ordered_before placed)).2 callee arguments called position ir clears.there exits
    | inr inside =>
      obtain ⟨c,rest,below,placed⟩ := inside
      have reached := active.traced _ c rest visited (path.symm.trans below)
      exact (reached position ir clears.there (ordered_before placed)).1

-- Where no parameter is assigned and no modifier skips its unit, a proven
-- record is cleared before any external call.
theorem proven_clears_before_calls
    (proven : proveRecordOrdering program function record assembly = .proven name shape cross)
    (resolved : recordSteps record = some steps) (starts : Starts program function inputs s)
    (run : Relation.ReflTransGen (CarefulStep program inputs.sender) s t) (calls : t.AtExternalCall program) :
    t.Cleared program inputs record.baseCanonical steps := by
  obtain ⟨_,resolved',closed,write,listed,each⟩ := proven_write proven
  cases resolved.symm.trans resolved'
  obtain ⟨visit,position,ir,shape,visited,clears⟩ := enumeration_clears write listed
  have right := General.run_keeps (fun _ _ right step => step_right right step) run (start_right starts)
  obtain ⟨frame,rest,next,stacked,there,external⟩ := calls
  have stack := right.stack
  rw [stacked] at stack
  have active := stack.head.active
  obtain ⟨site,found,path⟩ := (active.visited.walked closed).external_listed there external
  obtain ⟨inLoop,before,_⟩ := each site found
  obtain ⟨event,recorded,rfl,rfl⟩ := active.ran_before path before visited clears
  obtain ⟨there',written⟩ := right.trace event recorded
  cases clears.there.symm.trans there'
  obtain ⟨plain,target,cells,targeted,resolvedPath,covers⟩ := Scope.clearingShape_target clears.shaped
  obtain ⟨cell,wrote,found'⟩ := written target _ plain targeted resolvedPath
  exact ⟨event,recorded,shape,cell,wrote,clears.shaped,covers.clears (recordSteps_determinate resolved) found'⟩

theorem written_cells_resolved (starts : Starts program function inputs s)
    (run : Relation.ReflTransGen (CarefulStep program inputs.sender) s t) :
    ∀ event ∈ t.trace, EventRight program inputs event :=
  (General.run_keeps (fun _ _ right step => step_right right step) run (start_right starts)).trace

end

-- `delete bids[id]` in a statement of its own.
def deleteBid (parameter : Nat) : List Ir :=
  [.index (.reference 0) (.state "Auction.bids") (.localVar parameter),.delete (.reference 0) (.reference 0)]

def payOut : List Ir := [.externalCall .transfer none]

def bidRecord : RecordRef where
  baseCanonical := "Auction.bids"
  memberPath := some []
  keyKinds := some [.param]
  keyParamIndexes := some [some 0]

def callEnv (calldata : Nat → Nat) : Env := ⟨fun _ => none,calldata,fun _ => 0⟩

def startOf (program : UnitId → CodeUnit) (inputs : Inputs) : Machine :=
  ⟨[.plain {visit:=entryVisit program 0,env:=callEnv inputs.calldata}],[]⟩

-- `delete bids[id]; payee.transfer(amount)`.
def cancelProgram : UnitId → CodeUnit := fun _ => Code.unit
  {key:="Auction.cancel(uint256)"
   parameters:=[0]
   nodes:=[
     {sons:=[1],dominators:=[0]},
     {irs:=deleteBid 0,sons:=[2],fathers:=[0],dominators:=[0,1]},
     {irs:=payOut,fathers:=[1],dominators:=[0,1,2]}]} (by decide)

theorem careful_plain (step : Step program sender ⟨.plain a :: rest,trace⟩ t)
    (byValue : ∀ unit, (program unit).memoryLocals = [])
    (kept : ∀ ir ∈ a.ir program, ∀ id ∈ (program a.visit.unit).parameters, ir.target ≠ some (.localVar id)) :
    CarefulStep program sender ⟨.plain a :: rest,trace⟩ t := by
  have values (b : Activation) : b.ByValue program := by
    intro id _
    rw [byValue]
    exact not_mem_nil
  refine ⟨step,?_,fun _ _ _ _ _ _ other _ => ⟨values other.active,values other.whole⟩,?_⟩
  · intro frame rest ir stacked there
    cases stacked
    exact kept ir there
  · intro active host ran holding rest stacked
    cases stacked

theorem cancel_reaches_transfer : ∃ t, Relation.ReflTransGen (CarefulStep cancelProgram 5)
    (startOf cancelProgram ⟨fun _ => 7,5⟩) t ∧
    t.AtExternalCall cancelProgram := by
  have start : Relation.ReflTransGen (CarefulStep cancelProgram 5) _ (startOf cancelProgram ⟨fun _ => 7,5⟩) := .refl
  have entered := start.tail
    (careful_plain (.jump ⟨by decide,by decide⟩ (show 1 ∈ (cancelProgram 0).sonsOf 0 by decide)) (fun _ => rfl)
      (by decide))
  have taken := entered.tail (careful_plain (.execute rfl (.index rfl rfl)) (fun _ => rfl) (by decide))
  have deleted := taken.tail (careful_plain (.execute rfl (.write rfl rfl rfl rfl)) (fun _ => rfl) (by decide))
  have left := deleted.tail
    (careful_plain (.jump ⟨by decide,by decide⟩ (show 2 ∈ (cancelProgram 0).sonsOf 1 by decide)) (fun _ => rfl)
      (by decide))
  exact ⟨_,left,_,_,_,rfl,rfl,rfl⟩

theorem cancel_cells_resolved : ∃ t : Machine, t.AtExternalCall cancelProgram ∧
    ∀ event ∈ t.trace, EventRight cancelProgram ⟨fun _ => 7,5⟩ event := by
  obtain ⟨t,run,calls⟩ := cancel_reaches_transfer
  exact ⟨t,calls,written_cells_resolved ⟨_,rfl,fun _ => rfl,fun _ _ => rfl⟩ run⟩

theorem cancel_cleared : ∃ t : Machine, t.AtExternalCall cancelProgram ∧
    t.Cleared cancelProgram ⟨fun _ => 7,5⟩ "Auction.bids" [.index (.param 0)] := by
  have proven : proveRecordOrdering cancelProgram 0 bidRecord false = .proven "Auction.bids" (some .delete) false := by
    decide +kernel
  have starts : Starts cancelProgram 0 ⟨fun _ => 7,5⟩ (startOf cancelProgram ⟨fun _ => 7,5⟩) :=
    ⟨_,rfl,fun _ => rfl,fun _ _ => rfl⟩
  obtain ⟨t,run,calls⟩ := cancel_reaches_transfer
  exact ⟨t,calls,proven_clears_before_calls proven rfl starts run calls⟩

-- `id = other; delete bids[id]; payee.transfer(amount)`.
def reassigningProgram : UnitId → CodeUnit := fun _ => Code.unit
  {key:="Auction.claim(uint256,uint256)"
   parameters:=[0,1]
   nodes:=[
     {sons:=[1],dominators:=[0]},
     {irs:=[.assignment (.localVar 0) (.localVar 1)],sons:=[2],fathers:=[0],dominators:=[0,1]},
     {irs:=deleteBid 0,sons:=[3],fathers:=[1],dominators:=[0,1,2]},
     {irs:=payOut,fathers:=[2],dominators:=[0,1,2,3]}]} (by decide)

-- `bytes(id)[0] = x; delete bids[id]; payee.transfer(amount)` with `string memory id`.
def mutatingProgram : UnitId → CodeUnit := fun _ => Code.unit
  {key:="Auction.claim(string)"
   parameters:=[0]
   memoryLocals:=[0]
   nodes:=[
     {sons:=[1],dominators:=[0]},
     {irs:=[.typeConversion (.temporary 0) (.localVar 0),
        .index (.reference 1) (.temporary 0) (.constant (.number (some 0))),
        .assignment (.reference 1) (.constant (.number none))],
      sons:=[2],fathers:=[0],dominators:=[0,1]},
     {irs:=deleteBid 0,sons:=[3],fathers:=[1],dominators:=[0,1,2]},
     {irs:=payOut,fathers:=[2],dominators:=[0,1,2,3]}]} (by decide)

-- `claim` calls `_clear(id)` and pays; `_clear` deletes the bid under a modifier
-- `if (open) _;`.
def skippingProgram : UnitId → CodeUnit
  | 0 => Code.unit
    {key:="Auction.claim(uint256)"
     parameters:=[0]
     nodes:=[
       {sons:=[1],dominators:=[0]},
       {irs:=[.internalCall (some 1) [.localVar 0] none],sons:=[2],fathers:=[0],dominators:=[0,1]},
       {irs:=payOut,fathers:=[1],dominators:=[0,1,2]}]} (by decide)
  | 1 => Code.unit
    {key:="Auction._clear(uint256)"
     parameters:=[1]
     nodes:=[
       {sons:=[1],dominators:=[0]},
       {irs:=[.internalCall (some 2) [] none],sons:=[2],fathers:=[0],dominators:=[0,1]},
       {irs:=deleteBid 1,fathers:=[1],dominators:=[0,1,2]}]} (by decide)
  | _ => Code.unit
    {key:="Auction.whenOpen()"
     isModifier:=true
     nodes:=[
       {sons:=[1],dominators:=[0]},
       {sons:=[2,3],fathers:=[0],dominators:=[0,1]},
       {type:=.placeholder,sons:=[3],fathers:=[1],dominators:=[0,1,2]},
       {fathers:=[1,2],dominators:=[0,1,3]}]} (by decide)

-- A proven order, and a run that comes to an external call with the record not
-- cleared.
def Missed (program : UnitId → CodeUnit) (inputs : Inputs) : Prop :=
  proveRecordOrdering program 0 bidRecord false = .proven "Auction.bids" (some .delete) false ∧
    Starts program 0 inputs (startOf program inputs) ∧
    ∃ t, Relation.ReflTransGen (Step program inputs.sender) (startOf program inputs) t ∧ t.AtExternalCall program ∧
      ¬t.Cleared program inputs "Auction.bids" [.index (.param 0)]

-- Bid 9 is none of bid 7's, whatever a write to it is taken for.
theorem other_bid_uncleared {s : Machine} (inputs : Inputs) (asked : inputs.calldata 0 = 7)
    (written : s.trace.map Executed.cell = cells)
    (others : ∀ cell ∈ cells, cell = none ∨ cell = some ⟨"Auction.bids",[.key 9]⟩) :
    ¬s.Cleared program inputs "Auction.bids" [.index (.param 0)] := by
  rintro ⟨event,recorded,shape,cell,wrote,_,clears⟩
  have listed : some cell ∈ cells := by
    rw [← written,← wrote]
    exact mem_map_of_mem recorded
  have bids := others _ listed
  rw [or_iff_right (Option.some_ne_none cell),Option.some.injEq] at bids
  rw [bids] at clears
  have bid : (9 : Nat) ≠ inputs.calldata 0 := by
    rw [asked]
    decide
  cases shape with
  | delete => exact bid (CellStep.key.inj (cons_prefix_cons.mp clears.2).1)
  | flagFlip =>
    obtain ⟨name,same⟩ := clears.2
    cases congrArg List.length same
  | _ => exact bid (CellStep.key.inj (List.cons.inj clears.2).1)

theorem reassigned_parameter_missed : Missed reassigningProgram ⟨fun position => if position = 0 then 7 else 9,5⟩ := by
  refine ⟨by decide +kernel,⟨_,rfl,fun _ => rfl,by decide⟩,?_⟩
  have start : Relation.ReflTransGen (Step reassigningProgram 5) _
    (startOf reassigningProgram ⟨fun position => if position = 0 then 7 else 9,5⟩) := .refl
  have entered := start.tail (.jump ⟨by decide,by decide⟩ (show 1 ∈ (reassigningProgram 0).sonsOf 0 by decide))
  have assigned := entered.tail (.execute rfl (.write rfl rfl rfl rfl))
  have moved := assigned.tail (.jump ⟨by decide,by decide⟩ (show 2 ∈ (reassigningProgram 0).sonsOf 1 by decide))
  have taken := moved.tail (.execute rfl (.index rfl rfl))
  have deleted := taken.tail (.execute rfl (.write rfl rfl rfl rfl))
  have left := deleted.tail (.jump ⟨by decide,by decide⟩ (show 3 ∈ (reassigningProgram 0).sonsOf 2 by decide))
  refine ⟨_,left,⟨_,_,_,rfl,rfl,rfl⟩,other_bid_uncleared _ rfl
    (show _ = [some ⟨"Auction.bids",[.key 9]⟩,none,none] from rfl) (by decide)⟩

theorem mutated_key_missed : Missed mutatingProgram ⟨fun _ => 7,5⟩ := by
  refine ⟨by decide +kernel,⟨_,rfl,fun _ => rfl,by decide⟩,?_⟩
  have start : Relation.ReflTransGen (Step mutatingProgram 5) _ (startOf mutatingProgram ⟨fun _ => 7,5⟩) := .refl
  have entered := start.tail (.jump ⟨by decide,by decide⟩ (show 1 ∈ (mutatingProgram 0).sonsOf 0 by decide))
  have converted := entered.tail (.execute rfl (@Executes.write _ _ _ _ _ 0 rfl rfl rfl trivial))
  have pointed := converted.tail (.execute rfl (@Executes.index _ _ _ 0 _ _ _ rfl rfl))
  have changed := pointed.tail (.touch rfl ⟨rfl,1,rfl,_,rfl,rfl⟩
    (.cons (.plain ⟨⟨_,fun id => if id = 0 then 9 else 7,fun _ => 0⟩,rfl,rfl,
      fun id other => if_neg fun same : id = 0 => other (mem_singleton.mpr same)⟩) .nil))
  have written := changed.tail (.execute rfl (@Executes.write _ _ _ _ _ 0 rfl rfl rfl trivial))
  have moved := written.tail (.jump ⟨by decide,by decide⟩ (show 2 ∈ (mutatingProgram 0).sonsOf 1 by decide))
  have taken := moved.tail (.execute rfl (.index rfl rfl))
  have deleted := taken.tail (.execute rfl (.write rfl rfl rfl rfl))
  have left := deleted.tail (.jump ⟨by decide,by decide⟩ (show 3 ∈ (mutatingProgram 0).sonsOf 2 by decide))
  refine ⟨_,left,⟨_,_,_,rfl,rfl,rfl⟩,other_bid_uncleared _ rfl
    (show _ = [some ⟨"Auction.bids",[.key 9]⟩,none,none,none,none] from rfl) (by decide)⟩

theorem skipped_body_missed : Missed skippingProgram ⟨fun _ => 7,5⟩ := by
  refine ⟨by decide +kernel,⟨_,rfl,fun _ => rfl,by decide⟩,?_⟩
  have start : Relation.ReflTransGen (Step skippingProgram 5) _ (startOf skippingProgram ⟨fun _ => 7,5⟩) := .refl
  have entered := start.tail (.jump ⟨by decide,by decide⟩ (show 1 ∈ (skippingProgram 0).sonsOf 0 by decide))
  have called := entered.tail
    (.call rfl rfl rfl
      (show Enters _ _ _ _ (callEnv fun _ => 7) from ⟨by simp [skippingProgram,Code.unit,Env.Evaluates]; rfl,
        fun _ => rfl⟩))
  have inside := called.tail (.jump ⟨by decide,by decide⟩ (show 1 ∈ (skippingProgram 1).sonsOf 0 by decide))
  have modified :=
    inside.tail
      (.modifier rfl rfl rfl
        (show Enters _ _ _ _ (callEnv fun _ => 0) from ⟨fun _ none => (by cases none),fun _ => rfl⟩))
  have tested := modified.tail (.jump ⟨by decide,by decide⟩ (show 1 ∈ (skippingProgram 2).sonsOf 0 by decide))
  have skipped := tested.tail (.jump ⟨by decide,by decide⟩ (show 3 ∈ (skippingProgram 2).sonsOf 1 by decide))
  have back := skipped.tail (@Step.leave skippingProgram 5 _ _ _ _ 0 ⟨⟨by decide,by decide⟩,by decide⟩)
  have left := back.tail (.jump ⟨by decide,by decide⟩ (show 2 ∈ (skippingProgram 0).sonsOf 1 by decide))
  refine ⟨_,left,⟨_,_,_,rfl,rfl,rfl⟩,other_bid_uncleared _ rfl (show _ = [none,none] from rfl) (by decide)⟩

theorem proven_order_missed : Missed reassigningProgram ⟨fun position => if position = 0 then 7 else 9,5⟩ ∧
    Missed mutatingProgram ⟨fun _ => 7,5⟩ ∧ Missed skippingProgram ⟨fun _ => 7,5⟩ :=
  ⟨reassigned_parameter_missed,mutated_key_missed,skipped_body_missed⟩

end Psat.Ordering
